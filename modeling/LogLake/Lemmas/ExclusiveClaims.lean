import LogLake.Lemmas.ProofEvidence

/-! # Claims that can still be committed -/

namespace LogLake.Catalog

open List KeyedTable Function

variable {tenant indexId : Text} {maxAge : Int}

namespace DrainState

def appendedIds (s : DrainState) : List Text := s.appended.map ClaimedSegment.id

/-- A claim old enough to be listed by a sweep. -/
def Expired (maxAge : Int) (s : DrainState) (claim : ClaimedSegment) : Prop := claim.claimedAt + maxAge < s.clock

/-- While the row is under this claim, the segment is not in the table. -/
def Unproven (s : DrainState) (claim : ClaimedSegment) : Prop :=
  ∀ row ∈ s.ledger.row claim.id, row.status = .processing → row.claimedAt = some claim.claimedAt → claim.id ∉ s.appendedIds

/-- What a sweep may rely on. -/
def SweepSafe (maxAge : Int) (s : DrainState) : SweepPhase → Prop
  | .idle => True
  | .listed claims => ∀ claim ∈ claims, s.Expired maxAge claim
  | .decided _ requeue => ∀ claim ∈ requeue, s.Expired maxAge claim ∧ s.Unproven claim

theorem SweepSafe.mono {s s' : DrainState} {phase : SweepPhase} (h : s.SweepSafe maxAge phase)
    (hexpired : ∀ claim, s.Expired maxAge claim → s'.Expired maxAge claim)
    (hunproven : ∀ claim, s.Expired maxAge claim → s.Unproven claim → s'.Unproven claim) : s'.SweepSafe maxAge phase := by
  cases phase with
  | idle => trivial
  | listed claims => exact fun claim hclaim => hexpired claim (h claim hclaim)
  | decided proven requeue =>
    intro claim hclaim
    obtain ⟨hold, hnot⟩ := h claim hclaim
    exact ⟨hexpired claim hold, hunproven claim hold hnot⟩

end DrainState

def Row.UnderClaim (p : Text) (claim : ClaimedSegment) (row : Row) : Prop :=
  row.ClaimedBy p ∧ row.claimedAt = some claim.claimedAt ∨ row.status = .committed

structure Exclusive (maxAge : Int) (s : DrainState) : Prop where
  reading : ∀ p, (s.clients p).reading ≤ s.clock
  quiet : ∀ p, (s.clients p).boundary = none ∧ (s.clients p).terminal = []
  heldNodup : ∀ p, ((s.clients p).held.map ClaimedSegment.id).Nodup
  current : ∀ p, ∀ claim ∈ (s.clients p).held, s.Timely maxAge claim →
    (∃ row, s.ledger.row claim.id = some row ∧ row.UnderClaim p claim) ∧ claim.id ∉ s.appendedIds
  single : ∀ p q, ∀ claim ∈ (s.clients p).held, ∀ other ∈ (s.clients q).held, claim.id = other.id →
    s.Timely maxAge claim → s.Timely maxAge other → p = q
  own : ∀ p, ∀ claim ∈ (s.clients p).held, ∀ row ∈ s.ledger.row claim.id, row.ClaimedBy p → claim.id ∉ s.appendedIds
  appendedRow : ∀ id ∈ s.appendedIds, ∃ row, s.ledger.row id = some row ∧ (row.status = .processing ∨ row.status = .committed)
  nodup : s.appendedIds.Nodup
  proven : ∀ id ∈ s.appendedIds, ∃ proof ∈ s.proof, proof.contains (basename id) = true
  unacknowledged : ∀ proof ∈ s.proof, proof.acknowledgedThrough = none
  fresh : s.proof = none → s.snapshots = []
  sweep : ∀ p, s.SweepSafe maxAge (s.clients p).sweep

theorem exclusive_start (clock : Int) (ledger : Ledger) : Exclusive maxAge (DrainState.start clock ledger) where
  reading _ := le_refl clock
  quiet _ := ⟨rfl, rfl⟩
  heldNodup _ := nodup_nil
  current _ _ h := by cases h
  single _ _ _ h := by cases h
  own _ _ h := by cases h
  appendedRow _ h := by cases h
  nodup := nodup_nil
  proven _ h := by cases h
  unacknowledged _ h := by cases h
  fresh _ := rfl
  sweep _ := trivial

/-! ## Statements that take no claim away -/

/-- Processing rows are as they were, and a row that was processing or committed stays so or becomes committed. -/
structure Ledger.Keeps (before after : Ledger) : Prop where
  back : ∀ id row, after.row id = some row → row.status = .processing → before.row id = some row
  forth : ∀ id row, before.row id = some row → row.status = .processing ∨ row.status = .committed →
    ∃ row', after.row id = some row' ∧ (row' = row ∨ row'.status = .committed)

section

variable (ledger : Ledger)
include ledger

theorem keeps_register (id tenant indexId segmentUrl : Text) (bytes rows now : Int) :
    Ledger.Keeps ledger (register id tenant indexId segmentUrl bytes rows now ledger) := by
  unfold register
  constructor
  · intro id' row hrow hstatus
    rw [row_insertNew] at hrow
    split at hrow
    · cases hold : ledger.row id' with
      | none =>
        rw [hold, Option.getD_none, Option.some.injEq] at hrow
        rw [← hrow] at hstatus
        cases hstatus
      | some old => rwa [hold, Option.getD_some] at hrow
    · exact hrow
  · intro id' row hrow _
    refine ⟨row, ?_, Or.inl rfl⟩
    rw [row_insertNew, hrow, Option.getD_some, ite_self]

/-- A statement that only commits rows under a claim takes no claim away. -/
theorem Ledger.keeps_update {p : Row → Prop} [DecidablePred p] {set : Row → Row}
    {hkey : ∀ row, (set row).id = row.id} (hset : ∀ row, p row → (set row).status ≠ .processing)
    (hcommitted : ∀ row, p row → row.status = .processing ∨ row.status = .committed → (set row).status = .committed) :
    Ledger.Keeps ledger (ledger.update p set hkey) := by
  constructor
  · intro id row hrow hstatus
    rw [row_update] at hrow
    obtain ⟨old, hold, hnew⟩ := Option.map_eq_some_iff.mp hrow
    split at hnew
    · next hp =>
      rw [← hnew] at hstatus
      exact absurd hstatus (hset old hp)
    · rwa [← hnew]
  · intro id row hrow hstatus
    refine ⟨_, by rw [row_update, hrow, Option.map_some], ?_⟩
    split
    · next hp => exact Or.inr (hcommitted row hp hstatus)
    · exact Or.inl rfl

theorem keeps_requeueQuarantined : Ledger.Keeps ledger (requeueQuarantined ledger) := by
  apply ledger.keeps_update
  · intro row _
    simp
  · intro row hquarantined hstatus
    rw [hquarantined] at hstatus
    simp at hstatus

theorem Marking.keeps_apply (m : Marking) : Ledger.Keeps ledger (m.apply ledger) :=
  ledger.keeps_update (fun _ _ => by simp) fun _ _ _ => rfl

end

variable {row : Row}

theorem Row.UnderClaim.status {p : Text} {claim : ClaimedSegment} (h : row.UnderClaim p claim) :
    row.status = .processing ∨ row.status = .committed :=
  h.imp_left (·.1.1)

theorem Row.ClaimedBy.unique {p q : Text} (hp : row.ClaimedBy p) (hq : row.ClaimedBy q) : p = q :=
  Option.some.inj (hp.2.symm.trans hq.2)

theorem Row.UnderClaim.claimedBy {p : Text} {claim : ClaimedSegment} (h : row.UnderClaim p claim)
    (hstatus : row.status = .processing) : row.ClaimedBy p ∧ row.claimedAt = some claim.claimedAt := by
  rcases h with h | hcommitted
  · exact h
  · rw [hcommitted] at hstatus
    cases hstatus

namespace Exclusive

variable {s : DrainState} {after : Ledger}

section

variable (h : Exclusive maxAge s)
include h

/-- A statement that takes no claim away keeps the claims exclusive. -/
theorem keeps (hkeeps : Ledger.Keeps s.ledger after) : Exclusive maxAge { s with ledger := after } where
  __ := h
  current p claim hclaim htimely := by
    obtain ⟨⟨row, hrow, hunder⟩, happended⟩ := h.current p claim hclaim htimely
    obtain ⟨row', hrow', hsame | hcommitted⟩ := hkeeps.forth claim.id row hrow hunder.status
    · exact ⟨⟨row', hrow', hsame ▸ hunder⟩, happended⟩
    · exact ⟨⟨row', hrow', Or.inr hcommitted⟩, happended⟩
  own p claim hclaim row hrow hclaimed := h.own p claim hclaim row (hkeeps.back _ row hrow hclaimed.1) hclaimed
  appendedRow id hid := by
    obtain ⟨row, hrow, hstatus⟩ := h.appendedRow id hid
    obtain ⟨row', hrow', rfl | hcommitted⟩ := hkeeps.forth id row hrow hstatus
    · exact ⟨row', hrow', hstatus⟩
    · exact ⟨row', hrow', Or.inr hcommitted⟩
  sweep p := by
    refine (h.sweep p).mono (fun _ hclaim => hclaim) fun claim _ hnot row hrow hstatus => ?_
    exact hnot row (hkeeps.back _ row hrow hstatus) hstatus

theorem setClient (p : Text) {c : Client} (hreading : c.reading ≤ s.clock)
    (hheld : c.held.Sublist (s.clients p).held) (hquiet : c.boundary = none ∧ c.terminal = [])
    (hsweep : s.SweepSafe maxAge c.sweep) : Exclusive maxAge (s.setClient p c) := by
  have hsub : ∀ q, ((s.setClient p c).clients q).held.Sublist (s.clients q).held :=
    forall_setClient (P := fun q c => c.held.Sublist (s.clients q).held) hheld fun _ => List.Sublist.refl _
  refine ⟨?_, ?_, fun q => (h.heldNodup q).sublist ((hsub q).map _), ?_, ?_, ?_, h.appendedRow, h.nodup, h.proven,
    h.unacknowledged, h.fresh, ?_⟩
  · exact forall_setClient (P := fun _ c => c.reading ≤ s.clock) hreading h.reading
  · exact forall_setClient (P := fun _ c => c.boundary = none ∧ c.terminal = []) hquiet h.quiet
  · intro q claim hclaim
    exact h.current q claim ((hsub q).subset hclaim)
  · intro q r claim hclaim other hother
    exact h.single q r claim ((hsub q).subset hclaim) other ((hsub r).subset hother)
  · intro q claim hclaim
    exact h.own q claim ((hsub q).subset hclaim)
  · exact forall_setClient (P := fun _ c => s.SweepSafe maxAge c.sweep) hsweep h.sweep

theorem openMark {matched : Row → Bool} {now : Int} {reclaimed : Bool} {p : Text} {c : Client} {s' : DrainState}
    (hopen : s.openMark matched now reclaimed p c = some s') (hreading : c.reading ≤ s.clock)
    (hheld : c.held.Sublist (s.clients p).held) (hquiet : c.boundary = none ∧ c.terminal = [])
    (hsweep : s.SweepSafe maxAge c.sweep) : Exclusive maxAge s' := by
  obtain ⟨-, rfl⟩ := Option.ite_some_none_eq_some.mp hopen
  have hlocked : Exclusive maxAge { s with locked := s.locked ++ (s.ledger.rows.filter matched).map Row.id } := { h with }
  exact hlocked.setClient p hreading hheld hquiet hsweep

theorem record (candidates : List Candidate) : Exclusive maxAge { s with candidates } :=
  { h with }

theorem commitMark (m : Marking) (verified : Option Text) (candidate : Option Int)
    (current : Option ConsumedProofWatermark) : Exclusive maxAge (s.commitMark m verified candidate current) :=
  { h.keeps (m.keeps_apply s.ledger) with }

theorem tick (ms : Nat) : Exclusive maxAge { s with clock := s.clock + ms } := by
  have htimely : ∀ claim, DrainState.Timely maxAge { s with clock := s.clock + ms } claim → s.Timely maxAge claim := by
    intro claim hclaim
    unfold DrainState.Timely at hclaim ⊢
    dsimp only at hclaim
    omega
  have hexpired : ∀ claim, s.Expired maxAge claim → DrainState.Expired maxAge { s with clock := s.clock + ms } claim := by
    intro claim hclaim
    unfold DrainState.Expired at hclaim ⊢
    dsimp only
    omega
  refine { h with reading := ?_, current := ?_, single := ?_, sweep := ?_ }
  · intro p
    have hreading := h.reading p
    dsimp only
    omega
  · intro p claim hclaim ht
    exact h.current p claim hclaim (htimely claim ht)
  · intro p q claim hclaim other hother hid ht ht'
    exact h.single p q claim hclaim other hother hid (htimely claim ht) (htimely other ht')
  · exact fun p => (h.sweep p).mono hexpired fun _ _ hnot => hnot

end

/-! ## Claims, and claims given back -/

variable {id : Text}

/-- A sealed row is under no claim that can still be committed. -/
theorem free_of_sealed (h : Exclusive maxAge s) (hrow : s.ledger.row id = some row) (hsealed : row.status = .sealed) :
    id ∉ s.appendedIds ∧ ∀ q, ∀ claim ∈ (s.clients q).held, claim.id = id → ¬ s.Timely maxAge claim := by
  constructor
  · intro hid
    obtain ⟨row', hrow', hstatus⟩ := h.appendedRow id hid
    rw [hrow, Option.some.injEq] at hrow'
    rw [← hrow', hsealed] at hstatus
    simp at hstatus
  · rintro q claim hclaim rfl htimely
    obtain ⟨⟨row', hrow', hunder⟩, -⟩ := h.current q claim hclaim htimely
    rw [hrow, Option.some.injEq] at hrow'
    have hstatus := hunder.status
    rw [← hrow', hsealed] at hstatus
    simp at hstatus

variable {ids : List Text}

theorem row_of_claimable (hrow : row ∈ s.claimable tenant indexId ids) (p : Text) (now : Int) :
    s.ledger.row row.id = some row ∧ row.status = .sealed ∧ row.id ∈ ids ∧
      (claimRows p now ids s.ledger).row row.id = some (row.claim p now) := by
  unfold DrainState.claimable at hrow
  rw [mem_filter, decide_eq_true_eq] at hrow
  obtain ⟨hmem, hid, hsealed, -⟩ := hrow
  have hsome := row_eq_some.mpr ⟨hmem, rfl⟩
  exact ⟨hsome, hsealed, hid, row_update_of_pos hsome ⟨hid, hsealed⟩⟩

theorem row_claimRows_of_ne (hrow : s.ledger.row id = some row)
    (hstatus : row.status = .processing ∨ row.status = .committed) (p : Text) (now : Int) (ids : List Text) :
    (claimRows p now ids s.ledger).row id = some row := by
  refine row_update_of_not hrow fun hp => ?_
  rw [hp.2] at hstatus
  simp at hstatus

variable {p : Text}

theorem row_of_claimRows {now : Int} {row' : Row} (hrow' : (claimRows p now ids s.ledger).row id = some row') :
    s.ledger.row id = some row' ∨ ∃ row, s.ledger.row id = some row ∧ row.status = .sealed := by
  rcases row_update_eq_some hrow' with hold | ⟨row, hrow, hp, -⟩
  · exact Or.inl hold
  · exact Or.inr ⟨row, hrow, hp.2⟩

section

variable (h : Exclusive maxAge s)
include h

theorem claimRows (p : Text) (now : Int) (ids : List Text) :
    Exclusive maxAge { s with ledger := claimRows p now ids s.ledger } where
  __ := h
  current q claim hclaim htimely := by
    obtain ⟨⟨row, hrow, hunder⟩, happended⟩ := h.current q claim hclaim htimely
    exact ⟨⟨row, row_claimRows_of_ne hrow hunder.status p now ids, hunder⟩, happended⟩
  own q claim hclaim row' hrow' hclaimed := by
    rcases row_of_claimRows hrow' with hold | ⟨row, hrow, hsealed⟩
    · exact h.own q claim hclaim row' hold hclaimed
    · exact (h.free_of_sealed hrow hsealed).1
  appendedRow id hid := by
    obtain ⟨row, hrow, hstatus⟩ := h.appendedRow id hid
    exact ⟨row, row_claimRows_of_ne hrow hstatus p now ids, hstatus⟩
  sweep q := by
    refine (h.sweep q).mono (fun _ hclaim => hclaim) fun claim _ hnot row' hrow' hstatus hclaimedAt => ?_
    rcases row_of_claimRows hrow' with hold | ⟨row, hrow, hsealed⟩
    · exact hnot row' hold hstatus hclaimedAt
    · exact (h.free_of_sealed hrow hsealed).1

theorem hold (p : Text) {claims : List ClaimedSegment}
    (hnodup : (((s.clients p).held ++ claims).map ClaimedSegment.id).Nodup)
    (hrow : ∀ claim ∈ claims, ∃ row, s.ledger.row claim.id = some row ∧ row.UnderClaim p claim)
    (hout : ∀ claim ∈ claims, claim.id ∉ s.appendedIds)
    (hfree : ∀ claim ∈ claims, ∀ q, ∀ other ∈ (s.clients q).held, other.id = claim.id → ¬ s.Timely maxAge other) :
    Exclusive maxAge (s.setClient p { s.clients p with held := (s.clients p).held ++ claims }) := by
  have hheld : ∀ q, ∀ claim ∈ ((s.setClient p { s.clients p with held := (s.clients p).held ++ claims }).clients q).held,
      claim ∈ (s.clients q).held ∨ q = p ∧ claim ∈ claims := by
    refine forall_setClient (P := fun q c => ∀ claim ∈ c.held, claim ∈ (s.clients q).held ∨ q = p ∧ claim ∈ claims) ?_ ?_
    · exact fun claim hclaim => (mem_append.mp hclaim).imp_right fun hin => ⟨rfl, hin⟩
    · exact fun q claim hclaim => Or.inl hclaim
  refine ⟨?_, ?_, ?_, ?_, ?_, ?_, h.appendedRow, h.nodup, h.proven, h.unacknowledged, h.fresh, ?_⟩
  · exact forall_setClient (P := fun _ c => c.reading ≤ s.clock) (h.reading p) h.reading
  · exact forall_setClient (P := fun _ c => c.boundary = none ∧ c.terminal = []) (h.quiet p) h.quiet
  · exact forall_setClient (P := fun _ c => (c.held.map ClaimedSegment.id).Nodup) hnodup h.heldNodup
  · intro q claim hclaim htimely
    rcases hheld q claim hclaim with hclaim | ⟨rfl, hin⟩
    · exact h.current q claim hclaim htimely
    · exact ⟨hrow claim hin, hout claim hin⟩
  · intro q r claim hclaim other hother hid htimely htimely'
    rcases hheld q claim hclaim with hold | ⟨rfl, hin⟩
    · rcases hheld r other hother with hold' | ⟨rfl, hin⟩
      · exact h.single q r claim hold other hold' hid htimely htimely'
      · exact absurd htimely (hfree other hin q claim hold hid)
    · rcases hheld r other hother with hold' | ⟨rfl, -⟩
      · exact absurd htimely' (hfree claim hin r other hold' hid.symm)
      · rfl
  · intro q claim hclaim
    rcases hheld q claim hclaim with hclaim | ⟨rfl, hin⟩
    · exact h.own q claim hclaim
    · exact fun _ _ _ => hout claim hin
  · exact forall_setClient (P := fun _ c => s.SweepSafe maxAge c.sweep) (h.sweep p) h.sweep

/-- Claims of sealed rows are exclusive. -/
theorem claim (hnew : ∀ claim ∈ (s.clients p).held, claim.id ∉ ids) :
    Exclusive maxAge ({ s with ledger := Catalog.claimRows p (s.clients p).reading ids s.ledger }.setClient p
      { s.clients p with held := (s.clients p).held ++
        (s.claimable tenant indexId ids).map fun row => Row.claimed row (s.clients p).reading }) := by
  refine (h.claimRows p (s.clients p).reading ids).hold p ?_ ?_ ?_ ?_
  · rw [map_append, map_map, nodup_append]
    refine ⟨h.heldNodup p, s.ledger.nodup.sublist (filter_sublist.map _), ?_⟩
    rintro id hid _ hid' rfl
    obtain ⟨claim, hclaim, rfl⟩ := mem_map.mp hid
    obtain ⟨row, hrow, hrowid⟩ := mem_map.mp hid'
    have hids := (row_of_claimable hrow p 0).2.2.1
    exact hnew claim hclaim (hrowid ▸ hids)
  · intro claim hclaim
    obtain ⟨row, hrow, rfl⟩ := mem_map.mp hclaim
    exact ⟨_, (row_of_claimable hrow p _).2.2.2, Or.inl ⟨⟨rfl, rfl⟩, rfl⟩⟩
  · intro claim hclaim
    obtain ⟨row, hrow, rfl⟩ := mem_map.mp hclaim
    obtain ⟨hold, hsealed, -⟩ := row_of_claimable hrow p 0
    exact (h.free_of_sealed hold hsealed).1
  · intro claim hclaim
    obtain ⟨row, hrow, rfl⟩ := mem_map.mp hclaim
    obtain ⟨hold, hsealed, -⟩ := row_of_claimable hrow p 0
    exact (h.free_of_sealed hold hsealed).2

theorem unclaim {p : Row → Prop} [DecidablePred p] {set : Row → Row}
    (hkey : ∀ row, (set row).id = row.id) (hafter : after = s.ledger.update p set hkey)
    (hset : ∀ row, (set row).status ≠ .processing) (hout : ∀ id row, s.ledger.row id = some row → p row → id ∉ s.appendedIds)
    (hfree : ∀ id row, s.ledger.row id = some row → p row →
      ∀ q, ∀ claim ∈ (s.clients q).held, claim.id = id → ¬ s.Timely maxAge claim) :
    Exclusive maxAge { s with ledger := after } := by
  subst hafter
  have hback : ∀ {id row'}, (s.ledger.update p set hkey).row id = some row' → row'.status = .processing →
      s.ledger.row id = some row' := by
    intro id row' hrow' hstatus
    rcases row_update_eq_some hrow' with hold | ⟨row, -, -, rfl⟩
    · exact hold
    · exact absurd hstatus (hset row)
  refine { h with current := ?_, own := ?_, appendedRow := ?_, sweep := ?_ }
  · intro q claim hclaim htimely
    obtain ⟨⟨row, hrow, hunder⟩, hnot⟩ := h.current q claim hclaim htimely
    have hp : ¬ p row := fun hp => hfree _ row hrow hp q claim hclaim rfl htimely
    have hkept : (s.ledger.update p set hkey).row claim.id = some row := row_update_of_not hrow hp
    exact ⟨⟨row, hkept, hunder⟩, hnot⟩
  · intro q claim hclaim row' hrow' hclaimed
    exact h.own q claim hclaim row' (hback hrow' hclaimed.1) hclaimed
  · intro id hid
    obtain ⟨row, hrow, hstatus⟩ := h.appendedRow id hid
    have hkept : (s.ledger.update p set hkey).row id = some row :=
      row_update_of_not hrow fun hp => hout id row hrow hp hid
    exact ⟨row, hkept, hstatus⟩
  · intro q
    refine (h.sweep q).mono (fun _ hclaim => hclaim) fun claim _ hnot row' hrow' hstatus => ?_
    exact hnot row' (hback hrow' hstatus) hstatus

/-- A claim given back by its holder frees the row. -/
theorem giveBack (hheld : ∃ claim ∈ (s.clients p).held, claim.id = id)
    {set : Row → Row} (hkey : ∀ row, (set row).id = row.id)
    (hafter : after = s.ledger.update (fun row => row.id = id ∧ row.ClaimedBy p) set hkey)
    (hset : ∀ row, (set row).status ≠ .processing) : Exclusive maxAge ({ s with ledger := after }.setClient p
      { s.clients p with held := (s.clients p).held.filter fun claim => claim.id ≠ id }) := by
  have hdropped : Exclusive maxAge
      (s.setClient p { s.clients p with held := (s.clients p).held.filter fun claim => claim.id ≠ id }) :=
    h.setClient p (h.reading p) filter_sublist (h.quiet p) (h.sweep p)
  refine hdropped.unclaim hkey hafter hset ?_ ?_
  · intro id' row hrow ⟨hid, hclaimed⟩ hin
    obtain ⟨claim, hclaim, rfl⟩ := hheld
    obtain rfl : claim.id = id' := hid.symm.trans (key_of_row hrow)
    exact h.own p claim hclaim row hrow hclaimed hin
  · intro id' row hrow ⟨hid, hclaimed⟩ q claim hclaim hclaimId htimely
    obtain rfl : id = id' := hid.symm.trans (key_of_row hrow)
    unfold DrainState.setClient at hclaim
    by_cases hq : q = p
    · subst hq
      dsimp only at hclaim
      rw [update_self, mem_filter, decide_eq_true_eq] at hclaim
      exact hclaim.2 hclaimId
    · dsimp only at hclaim
      rw [update_of_ne hq] at hclaim
      obtain ⟨⟨row', hrow', hunder⟩, -⟩ := h.current q claim hclaim htimely
      rw [hclaimId] at hrow'
      obtain rfl := Option.some.inj (hrow.symm.trans hrow')
      exact hq ((hunder.claimedBy hclaimed.1).1.unique hclaimed)

end

/-! ## Sweeps -/

variable {claim : ClaimedSegment}

section

variable (h : Exclusive maxAge s)
include h

theorem expired_of_abandoned {limit : Nat}
    (hclaim : claim ∈ abandonedClaims (s.clients p).reading maxAge limit s.ledger) : s.Expired maxAge claim := by
  have hmem := (mem_insertionSort _).mp (mem_of_mem_take hclaim)
  obtain ⟨row, -, hrow⟩ := mem_filterMap.mp hmem
  obtain ⟨-, hmap⟩ := Option.ite_none_right_eq_some.mp hrow
  obtain ⟨claimedAt, hfilter, rfl⟩ := Option.map_eq_some_iff.mp hmap
  have hlt : claimedAt < (s.clients p).reading - maxAge := of_decide_eq_true (Option.filter_eq_some_iff.mp hfilter).2
  have hreading := h.reading p
  change claimedAt + maxAge < s.clock
  omega

theorem unproven_of_not_proves (hproves : s.sources.proves claim.id = false) : s.Unproven claim := by
  intro _ _ _ _ hin
  obtain ⟨proof, hproof, hcontains⟩ := h.proven claim.id hin
  unfold ReclaimProofSources.proves DrainState.sources at hproves
  rw [Option.mem_def.mp hproof] at hproves
  simp [hcontains] at hproves

/-- A row under an expired claim that is not proven may be queued again. -/
theorem requeue (hexpired : s.Expired maxAge claim)
    (hunproven : s.Unproven claim) (hsame : ∀ row ∈ s.ledger.row claim.id, row.status = .processing →
      row.claimedAt = some claim.claimedAt) : Exclusive maxAge { s with ledger := requeueClaim claim.id s.ledger } := by
  refine h.unclaim (fun _ => by rfl) rfl (fun _ => by simp) ?_ ?_
  · intro id row hrow ⟨hid, hstatus⟩
    obtain rfl : claim.id = id := hid.symm.trans (key_of_row hrow)
    exact hunproven row hrow hstatus (hsame row hrow hstatus)
  · intro id row hrow ⟨hid, hstatus⟩ q other hother hotherId htimely
    obtain rfl : claim.id = id := hid.symm.trans (key_of_row hrow)
    obtain ⟨⟨row', hrow', hunder⟩, -⟩ := h.current q other hother htimely
    rw [hotherId] at hrow'
    obtain rfl := Option.some.inj (hrow.symm.trans hrow')
    -- The holder's claim is the listed one, which is too old.
    have hclaimedAt : other.claimedAt = claim.claimedAt :=
      Option.some.inj ((hunder.claimedBy hstatus).2.symm.trans (hsame row hrow hstatus))
    unfold DrainState.Timely at htimely
    unfold DrainState.Expired at hexpired
    omega

/-! ## Commits -/

variable {action : MergeConsumedProof}

theorem merge {claims : List ClaimedSegment}
    {proof' : ConsumedProof} (hcommit : action.commit s.proof s.snapshots = .ok proof')
    (hadditions : action.additions = claims.map fun claim => ⟨basename claim.id, claim.claimedAt⟩)
    (hboundary : action.acknowledgedThrough = none) (hterminal : action.terminal = [])
    (hnodup : (claims.map ClaimedSegment.id).Nodup)
    (hrow : ∀ claim ∈ claims, ∃ row, s.ledger.row claim.id = some row ∧ row.UnderClaim p claim)
    (htimely : ∀ claim ∈ claims, s.Timely maxAge claim) (hout : ∀ claim ∈ claims, claim.id ∉ s.appendedIds)
    (hfree : ∀ claim ∈ claims, ∀ q, ∀ other ∈ (s.clients q).held, other.id = claim.id → q ≠ p ∧ ¬ s.Timely maxAge other)
    (snapshots : List ProofSnapshot) :
    Exclusive maxAge { s with proof := some proof', snapshots := snapshots, appended := s.appended ++ claims } := by
  obtain ⟨-, hnew, hkept, hack⟩ := action.commit_spec hcommit h.fresh
  have hnone : ∀ a, a ∉ proof'.acknowledgedThrough := by
    intro a ha
    rcases hack a ha with ⟨proof, hproof, ha⟩ | ha
    · rw [h.unacknowledged proof hproof] at ha
      cases ha
    · rw [hboundary] at ha
      cases ha
  have happended : ∀ id, id ∈ (s.appended ++ claims).map ClaimedSegment.id ↔
      id ∈ s.appendedIds ∨ ∃ claim ∈ claims, claim.id = id := by
    intro id
    rw [map_append, mem_append, mem_map (l := claims)]
    rfl
  refine ⟨h.reading, h.quiet, h.heldNodup, ?_, h.single, ?_, ?_, ?_, ?_, ?_, nofun, ?_⟩
  · intro q claim hclaim ht
    obtain ⟨hunder, hnot⟩ := h.current q claim hclaim ht
    refine ⟨hunder, fun hid => ?_⟩
    rcases (happended _).mp hid with hin | ⟨other, hother, hid⟩
    · exact hnot hin
    · exact (hfree other hother q claim hclaim hid.symm).2 ht
  · intro q claim hclaim row hrow' hclaimed hid
    rcases (happended _).mp hid with hin | ⟨other, hother, hid⟩
    · exact h.own q claim hclaim row hrow' hclaimed hin
    · obtain ⟨row', hrow'', hunder⟩ := hrow other hother
      rw [hid] at hrow''
      obtain rfl := Option.some.inj (hrow'.symm.trans hrow'')
      refine (hfree other hother q claim hclaim hid.symm).1 ?_
      exact hclaimed.unique (hunder.claimedBy hclaimed.1).1
  · intro id hid
    rcases (happended _).mp hid with hin | ⟨claim, hclaim, rfl⟩
    · exact h.appendedRow id hin
    · obtain ⟨row, hrow', hunder⟩ := hrow claim hclaim
      exact ⟨row, hrow', hunder.status⟩
  · unfold DrainState.appendedIds
    rw [map_append, nodup_append]
    refine ⟨h.nodup, hnodup, ?_⟩
    rintro id hid _ hid' rfl
    obtain ⟨claim, hclaim, rfl⟩ := mem_map.mp hid'
    exact hout claim hclaim hid
  · intro id hid
    refine ⟨proof', rfl, ?_⟩
    rcases (happended _).mp hid with hin | ⟨claim, hclaim, rfl⟩
    · obtain ⟨proof, hproof, hcontains⟩ := h.proven id hin
      obtain ⟨e, he, hname⟩ := ConsumedProof.contains_iff.mp hcontains
      rw [← hname]
      refine hkept proof hproof e he ?_ fun a ha => absurd ha (hnone a)
      rw [hterminal]
      exact not_mem_nil
    · apply hnew ⟨basename claim.id, claim.claimedAt⟩
      rw [hadditions]
      exact mem_map.mpr ⟨claim, hclaim, rfl⟩
  · intro proof hproof
    cases hproof
    exact Option.eq_none_iff_forall_not_mem.mpr hnone
  · intro q
    refine (h.sweep q).mono (fun _ hclaim => hclaim) fun claim hexpired hnot row hrow' hstatus hclaimedAt hid => ?_
    rcases (happended _).mp hid with hin | ⟨other, hother, hid⟩
    · exact hnot row hrow' hstatus hclaimedAt hin
    · -- The row would be under a timely claim and under an expired one.
      obtain ⟨row', hrow'', hunder⟩ := hrow other hother
      rw [hid] at hrow''
      obtain rfl := Option.some.inj (hrow'.symm.trans hrow'')
      have hsame : other.claimedAt = claim.claimedAt :=
        Option.some.inj ((hunder.claimedBy hstatus).2.symm.trans hclaimedAt)
      have ht := htimely other hother
      unfold DrainState.Timely at ht
      unfold DrainState.Expired at hexpired
      omega

/-- A commit in time appends its segments for the first time. -/
theorem commit {proof' : ConsumedProof} (htimely : ∀ claim ∈ (s.clients p).held, claim.id ∈ ids → s.Timely maxAge claim)
    (hcommit : action.commit s.proof s.snapshots = .ok proof')
    (hadditions : action.additions = ((s.clients p).held.filter fun claim => claim.id ∈ ids).map fun claim =>
      ⟨basename claim.id, claim.claimedAt⟩)
    (hboundary : action.acknowledgedThrough = (s.clients p).boundary) (hterminal : action.terminal = (s.clients p).terminal)
    (snapshots : List ProofSnapshot) (committed : List Text) : Exclusive maxAge (DrainState.setClient { s with
        proof := some proof'
        snapshots := snapshots
        appended := s.appended ++ (s.clients p).held.filter fun claim => claim.id ∈ ids } p
      { s.clients p with
        held := (s.clients p).held.filter fun claim => claim.id ∉ ids
        committed := committed }) := by
  have hdropped : Exclusive maxAge (s.setClient p { s.clients p with
        held := (s.clients p).held.filter fun claim => claim.id ∉ ids
        committed := committed }) :=
    h.setClient p (h.reading p) filter_sublist (h.quiet p) (h.sweep p)
  have hheld : ∀ claim ∈ (s.clients p).held.filter fun claim => claim.id ∈ ids,
      claim ∈ (s.clients p).held ∧ claim.id ∈ ids := by
    intro claim hclaim
    rwa [mem_filter, decide_eq_true_eq] at hclaim
  refine hdropped.merge (p := p) hcommit hadditions (hboundary.trans (h.quiet p).1) (hterminal.trans (h.quiet p).2) ?_ ?_ ?_ ?_
    ?_ snapshots
  · exact (h.heldNodup p).sublist (filter_sublist.map _)
  · intro claim hclaim
    obtain ⟨hmem, hid⟩ := hheld claim hclaim
    exact (h.current p claim hmem (htimely claim hmem hid)).1
  · intro claim hclaim
    obtain ⟨hmem, hid⟩ := hheld claim hclaim
    exact htimely claim hmem hid
  · intro claim hclaim
    obtain ⟨hmem, hid⟩ := hheld claim hclaim
    exact (h.current p claim hmem (htimely claim hmem hid)).2
  · intro claim hclaim q other hother hsame
    obtain ⟨hmem, hid⟩ := hheld claim hclaim
    unfold DrainState.setClient at hother
    dsimp only at hother
    by_cases hq : q = p
    · subst hq
      rw [update_self, mem_filter, decide_eq_true_eq, hsame] at hother
      exact absurd hid hother.2
    · rw [update_of_ne hq] at hother
      exact ⟨hq, fun ht => hq (h.single q p other hother claim hmem hsame ht (htimely claim hmem hid))⟩

/-- Every step that meets the condition keeps the claims exclusive. -/
theorem step {a : DrainAction} {s' : DrainState} (hsafe : ReclaimSafe maxAge s a)
    (hstep : drainStep tenant indexId maxAge s a = some s') : Exclusive maxAge s' := by
  cases a with
  | tick ms =>
    cases hstep
    exact h.tick ms
  | read p =>
    cases hstep
    exact h.setClient p (le_refl s.clock) (List.Sublist.refl _) (h.quiet p) (h.sweep p)
  | register p id segmentUrl bytes rows =>
    cases hstep
    exact h.keeps (keeps_register _ _ _ _ _ _ _ _)
  | begin p =>
    cases hstep
    exact h.setClient p (h.reading p) (nil_sublist _) ⟨rfl, rfl⟩ (h.sweep p)
  | claim p ids =>
    obtain ⟨hnew, rfl⟩ := Option.ite_some_none_eq_some.mp hstep
    exact h.claim hnew
  | release p id =>
    obtain ⟨⟨hheld, -⟩, rfl⟩ := Option.ite_some_none_eq_some.mp hstep
    refine h.giveBack hheld (fun _ => by rfl) rfl fun row => ?_
    unfold Row.release
    dsimp only
    split <;> simp
  | quarantine p id =>
    obtain ⟨⟨hheld, -⟩, rfl⟩ := Option.ite_some_none_eq_some.mp hstep
    exact h.giveBack hheld (fun _ => by rfl) rfl fun row => by simp
  | requeueQuarantined =>
    cases hstep
    exact h.keeps (keeps_requeueQuarantined _)
  | readBoundary p verified | readTerminal p => cases hsafe
  | commit p ids =>
    obtain ⟨proof', hcommit, rfl⟩ := Option.map_eq_some_iff.mp hstep
    exact h.commit hsafe (ok_of_toOption hcommit) rfl rfl rfl _ _
  | mark p =>
    unfold drainStep at hstep
    dsimp only at hstep
    split at hstep
    · cases hstep
    · exact h.openMark hstep (h.reading p) (List.Sublist.refl _) (h.quiet p) (h.sweep p)
  | compact p =>
    obtain ⟨boundary, hboundary, -⟩ := Option.bind_eq_some_iff.mp hstep
    rw [(h.quiet p).1] at hboundary
    cases hboundary
  | expire n =>
    cases hstep
    refine { h with fresh := fun hnone => ?_ }
    change s.snapshots.drop n = []
    rw [h.fresh hnone, drop_nil]
  | list p limit =>
    cases hstep
    refine h.setClient p (h.reading p) (List.Sublist.refl _) (h.quiet p) ?_
    intro claim hclaim
    exact h.expired_of_abandoned (mem_of_mem_filter hclaim)
  | prove p readable =>
    have hsweep := h.sweep p
    unfold drainStep at hstep
    dsimp only at hstep
    split at hstep
    · next claims hphase =>
      cases hstep
      rw [hphase] at hsweep
      refine h.setClient p (h.reading p) (List.Sublist.refl _) (h.quiet p) ?_
      intro claim hclaim
      rw [mem_filter] at hclaim
      obtain ⟨hmem, hproves⟩ := hclaim
      have hreadable : readable = true := hsafe
      rw [hreadable, Bool.true_and, Bool.not_eq_true'] at hproves
      exact ⟨hsweep claim hmem, h.unproven_of_not_proves hproves⟩
    · cases hstep
  | markReclaimed p =>
    have hsweep := h.sweep p
    unfold drainStep at hstep
    dsimp only at hstep
    split at hstep
    · next id ids requeue hphase =>
      rw [hphase] at hsweep
      exact h.openMark hstep (h.reading p) (List.Sublist.refl _) (h.quiet p) hsweep
    · cases hstep
  | selectCandidate p =>
    unfold drainStep at hstep
    dsimp only at hstep
    split at hstep
    · cases hstep
      exact (h.record _).setClient p (h.reading p) (List.Sublist.refl _) (h.quiet p) (h.sweep p)
    · cases hstep
  | readWatermark p =>
    unfold drainStep at hstep
    dsimp only at hstep
    split at hstep
    · cases hstep
      exact h.setClient p (h.reading p) (List.Sublist.refl _) (h.quiet p) (h.sweep p)
    · cases hstep
  | commitMark p verified =>
    unfold drainStep at hstep
    dsimp only at hstep
    split at hstep
    · next ids now reclaimed candidate current _ =>
      cases hstep
      have hmarked := h.commitMark ⟨ids, now, reclaimed, .decided candidate current⟩ verified candidate current
      exact hmarked.setClient p (h.reading p) (List.Sublist.refl _) (h.quiet p) (hmarked.sweep p)
    · cases hstep
  | rollback p =>
    obtain ⟨m, -, rfl⟩ := Option.map_eq_some_iff.mp hstep
    have hunlocked : Exclusive maxAge { s with locked := s.unlock m.ids } := { h with }
    exact hunlocked.setClient p (h.reading p) (List.Sublist.refl _) (h.quiet p) (h.sweep p)
  | requeue p =>
    have hsweep := h.sweep p
    unfold drainStep at hstep
    dsimp only at hstep
    split at hstep
    · next claim rest hphase =>
      obtain ⟨-, rfl⟩ := Option.ite_some_none_eq_some.mp hstep
      rw [hphase] at hsweep
      obtain ⟨hexpired, hunproven⟩ := hsweep claim mem_cons_self
      have hqueued := h.requeue hexpired hunproven (hsafe claim (by rw [hphase]; rfl))
      refine hqueued.setClient p (h.reading p) (List.Sublist.refl _) (h.quiet p) ?_
      have hrest : DrainState.SweepSafe maxAge { s with ledger := _ } (s.clients p).sweep := hqueued.sweep p
      rw [hphase] at hrest
      exact fun other hother => hrest other (mem_cons_of_mem _ hother)
    · cases hstep

end

end Exclusive

end LogLake.Catalog
