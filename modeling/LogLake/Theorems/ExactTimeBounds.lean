import LogLake.Lemmas.TimeBounds

/-! # When the interval is the clause -/

namespace LogLake.Cost

open Option

/-- The instant of a row's event time. -/
def rowTime (row : Row) : Option Instant :=
  match row timestampName with
  | .timestamp u v => some (v * u.nanos)
  | _ => none

/-- The clause is TRUE exactly on the rows whose event time is known and lies in the interval. -/
def ExactBounds (P : Planner) (E : Engine) (e : Expr) (bounds : TimeRange) : Prop :=
  ∀ row, P.Typed row → (E.IsTrue row e ↔ ∃ t, rowTime row = some t ∧ bounds.Covers t)

section

variable {C : Chrono} {P : Planner} {now : Instant} {E : Engine}

theorem walk_of_extract {e : Expr} {bounds : TimeRange} (h : extractExactTimeBoundsFromExpr C P now e = some bounds) :
    walkExactTimePredicate C P now ⟨none, none⟩ e = some bounds ∧ bounds ≠ ⟨none, none⟩ := by
  unfold extractExactTimeBoundsFromExpr at h
  obtain ⟨⟨lo, hi⟩, hwalk, h⟩ := bind_eq_some_iff.mp h
  dsimp only at h
  split at h
  · split at h
    · cases h
    · obtain rfl := some.inj h
      exact ⟨hwalk, fun heq => nomatch heq⟩
  · cases h
  · rename_i hnone
    obtain rfl := some.inj h
    exact ⟨hwalk, fun heq => hnone (congrArg TimeRange.lo heq) (congrArg TimeRange.hi heq)⟩

theorem covers_unbounded (t : Instant) : (TimeRange.mk none none).Covers t :=
  ⟨fun _ h => (nomatch h), fun _ h => (nomatch h)⟩

/-- A row where only the event time is known. -/
def timeRow (u : TimeUnit) (v : I64) : Row := fun name => if name = timestampName then .timestamp u v.val else .null

theorem typed_timeRow {unit : TimeUnit} {tz : Option Text}
    (htype : P.typeOf (.column timestampName) = some (.timestamp unit tz)) (v : I64) : P.Typed (timeRow unit v) := by
  intro name u tz' hname
  unfold timeRow
  split
  · rename_i heq
    rw [heq, htype] at hname
    obtain ⟨rfl, -⟩ := DataType.timestamp.inj (some.inj hname)
    exact .inr ⟨v, rfl⟩
  · exact .inl rfl

/-- For a clause whose comparisons the engine reads as the walk does, the interval is the clause when every comparison
is on the event time and every condition taken to be constantly true is TRUE; and it is the clause only then, when an
event time can lie in the interval at all. -/
theorem exactBounds_iff_intervalLike (hP : P.Agrees E) {unit : TimeUnit} {tz : Option Text}
    (htype : P.typeOf (.column timestampName) = some (.timestamp unit tz)) {e : Expr} {bounds : TimeRange}
    (hread : Readable C P now E bounds e) (h : extractExactTimeBoundsFromExpr C P now e = some bounds) :
    (IntervalLike P E e → ExactBounds P E e bounds) ∧
      ((∃ v : I64, bounds.Covers (v.val * unit.nanos)) → ExactBounds P E e bounds → IntervalLike P E e) := by
  obtain ⟨hwalk, hbounded⟩ := walk_of_extract h
  refine ⟨fun hlike row hrow => ?_, fun ⟨v, hv⟩ hexact => ?_⟩
  · obtain ⟨hcovers, hvalue, hnull⟩ := walk_narrows hP htype hread hlike hwalk
    rcases hrow timestampName unit tz htype with hts | ⟨v, hts⟩
    · have hfalse := (hnull row hrow hts).resolve_left hbounded
      simp [hfalse, rowTime, hts]
    · rw [rowTime, hts]
      refine ⟨fun htrue => ⟨_, rfl, hcovers row v hrow hts (covers_unbounded _) htrue⟩, fun ⟨t, ht, hin⟩ => ?_⟩
      obtain rfl := some.inj ht
      exact (hvalue row v hrow hts hin).2 hin
  · have hrow := typed_timeRow htype v
    have htrue : E.IsTrue (timeRow unit v) e :=
      (hexact _ hrow).mpr ⟨v.val * unit.nanos, by simp [rowTime, timeRow], hv⟩
    exact intervalLike_of_isTrue hP hread hwalk hrow (fun n hn => if_neg hn) htrue

end

/-! ## Clauses on a table of events -/

def eventPlanner : Planner where
  castTo
    | .timestamp u tz, .timestamp u' _ v =>
      if h : IntType.int64.Fits (u'.convert u v.val) then some (.timestamp u tz ⟨u'.convert u v.val, h⟩) else none
    | _, _ => none
  typeOf := typeOf
  comparisonCoercion
    | .timestamp u tz, .timestamp u' _ => some (.timestamp (u.coarser u') tz)
    | _, _ => none
where
  typeOf : Expr → Option DataType
    | .column name =>
      if name = timestampName ∨ name = "started_at".toList then some (.timestamp .microsecond none) else none
    | .literal v => some v.dataType
    | .alias e _ => typeOf e
    | .cast _ t => some t
    | _ => none

def timestampEngine : Engine where
  cast
    | .timestamp u _, .timestamp u' v =>
      if IntType.int64.Fits (u'.convert u v) then .timestamp u (u'.convert u v) else .null
    | _, _ => .null
  call _ _ _ := .null
  arith _ _ _ := .null
  negate _ := .null
  mixed _ _ := none
  ilike _ _ _ := false
  other _ _ := .null

theorem eventPlanner_agrees : eventPlanner.Agrees timestampEngine where
  castTo_timestamp u tz v s h := by
    dsimp only [eventPlanner] at h
    split at h
    · exact ⟨_, (some.inj h).symm, rfl⟩
    · cases h
  coercion_timestamp u u' tz tz' t h := ⟨tz, (some.inj h).symm⟩
  typeOf_literal _ := rfl
  typeOf_alias _ _ := rfl
  typeOf_cast _ _ := rfl
  cast_null t := by cases t <;> rfl
  cast_timestamp u tz v := by
    dsimp only [timestampEngine]
    rw [TimeUnit.convert_self, if_pos v.property]

def nanosLiteral (v : Int) (h : IntType.int64.Fits v := by decide) : Expr :=
  .literal (.timestamp .nanosecond none ⟨v, h⟩)

def timestampColumnExpr : Expr := .column timestampName

/-- The end of the window is compared in nanoseconds. -/
def windowClause : Expr :=
  .binary (.binary timestampColumnExpr .gtEq (nanosLiteral 1000)) .and
    (.binary (nanosLiteral 4500) .gt (.cast timestampColumnExpr (.timestamp .nanosecond none)))

theorem readsInstant_of_none {C : Chrono} {P : Planner} {now : Instant} {E : Engine} {literal : Expr}
    (h : extractTimestampAt C P now literal = none) : ReadsInstant C P now E literal := by
  intro t _ _ _ _ _ _ _ ht
  rw [h] at ht
  cases ht

theorem readable_windowClause : Readable .unbounded eventPlanner 0 timestampEngine ⟨some 1000, some 5000⟩ windowClause := by
  have hliteral : ∀ v h, ReadsInstant .unbounded eventPlanner 0 timestampEngine (nanosLiteral v h) :=
    fun v h => readsInstant_timestamp eventPlanner_agrees .nanosecond none ⟨v, h⟩
  refine ⟨fun _ => ⟨⟨hliteral _ _, fun _ _ _ h => ?_⟩, readsInstant_of_none rfl, fun _ _ _ h => ?_⟩,
    fun _ => ⟨⟨readsInstant_of_none rfl, fun _ _ _ h => ?_⟩, hliteral _ _, fun _ _ _ h => ?_⟩⟩
  · cases h
    exact ⟨.inl trivial, .inl (by decide)⟩
  · cases h
  · cases h
  · cases h
    refine ⟨.inr ⟨fun _ _ _ _ => rfl, fun t ht => ?_⟩, .inr (by unfold NeighboursFit; decide)⟩
    have hlo : 1000 ≤ t := ht.1 1000 rfl
    have hhi : t < 5000 := ht.2 5000 rfl
    exact ⟨le_trans (by decide) hlo, hhi.le.trans (by decide)⟩

theorem intervalLike_windowClause : IntervalLike eventPlanner timestampEngine windowClause := by
  have hcolumn : OnTimestamp eventPlanner timestampColumnExpr := onTimestamp_of_eq rfl rfl
  have hcast : OnTimestamp eventPlanner (.cast timestampColumnExpr (.timestamp .nanosecond none)) := onTimestamp_of_eq rfl rfl
  have hliteral : ∀ v h, OnTimestamp eventPlanner (nanosLiteral v h) := fun _ _ => onTimestamp_of_none rfl
  have hconst : ∀ l r op, isRangeOp op = true → ConstantHolds timestampEngine (.binary l op r) := by
    intro l r op hrange htrue
    rw [constantTrueExpr_range hrange] at htrue
    cases htrue
  exact ⟨⟨fun _ => ⟨hcolumn, hliteral _ _⟩, hconst _ _ _ rfl⟩, fun _ => ⟨hliteral _ _, hcast⟩, hconst _ _ _ rfl⟩

/-- The window is the interval from one to five microseconds. -/
theorem exactBounds_windowClause :
    ∃ bounds, extractExactTimeBoundsFromExpr .unbounded eventPlanner 0 windowClause = some bounds ∧
      bounds = ⟨some 1000, some 5000⟩ ∧ ExactBounds eventPlanner timestampEngine windowClause bounds := by
  have hextract : extractExactTimeBoundsFromExpr .unbounded eventPlanner 0 windowClause =
      some ⟨some 1000, some 5000⟩ := by decide +kernel
  exact ⟨_, hextract, rfl,
    (exactBounds_iff_intervalLike eventPlanner_agrees rfl readable_windowClause hextract).1 intervalLike_windowClause⟩

def startedClause : Expr := .binary (.column "started_at".toList) .gtEq (nanosLiteral 1000)

def nullClause : Expr :=
  .binary (.binary timestampColumnExpr .gtEq (nanosLiteral 1000)) .and
    (.binary (.literal (.null .null)) .eq (.literal (.null .null)))

def overflowClause : Expr :=
  .binary (.binary timestampColumnExpr .gtEq (nanosLiteral 1000)) .and
    (.binary timestampColumnExpr .gt (nanosLiteral 9223372036854775807))

/-- A row where one column is known and is five microseconds. -/
def fiveMicros (column : Text) : Row := fun name => if name = column then .timestamp .microsecond 5 else .null

theorem typed_fiveMicros (column : Text) : eventPlanner.Typed (fiveMicros column) := by
  intro name u tz htype
  have hunit : u = .microsecond := by
    change (if _ then some (DataType.timestamp .microsecond none) else none) = _ at htype
    split at htype
    · exact (DataType.timestamp.inj (some.inj htype)).1.symm
    · cases htype
  unfold fiveMicros
  split
  · exact .inr ⟨⟨5, by decide⟩, by rw [hunit]⟩
  · exact .inl rfl

/-- Every one of these clauses gets the interval from one microsecond on. The first is TRUE on a row without an event
time, the other two are not TRUE on a row whose event time is five microseconds. -/
theorem not_exactBounds_of_other_conjuncts :
    (∀ e ∈ [startedClause, nullClause, overflowClause],
      extractExactTimeBoundsFromExpr .unbounded eventPlanner 0 e = some ⟨some 1000, none⟩) ∧
      (∀ e ∈ [startedClause, nullClause, overflowClause],
        ¬ ExactBounds eventPlanner timestampEngine e ⟨some 1000, none⟩) := by
  have hrow : (TimeRange.mk (some 1000) none).Covers 5000 := ⟨by simp, by simp⟩
  have htime : rowTime (fiveMicros timestampName) = some 5000 := by decide +kernel
  have hnone : rowTime (fiveMicros "started_at".toList) = none := by decide +kernel
  refine ⟨by simp only [List.forall_mem_cons]; decide +kernel, ?_⟩
  simp only [List.forall_mem_cons]
  refine ⟨fun hexact => ?_, fun hexact => ?_, fun hexact => ?_, fun _ h => (nomatch h)⟩
  · obtain ⟨t, ht, -⟩ := (hexact _ (typed_fiveMicros "started_at".toList)).mp (by unfold Engine.IsTrue; decide +kernel)
    rw [hnone] at ht
    cases ht
  · have htrue := (hexact _ (typed_fiveMicros timestampName)).mpr ⟨5000, htime, hrow⟩
    exact absurd htrue (by unfold Engine.IsTrue; decide +kernel)
  · have htrue := (hexact _ (typed_fiveMicros timestampName)).mpr ⟨5000, htime, hrow⟩
    exact absurd htrue (by unfold Engine.IsTrue; decide +kernel)

end LogLake.Cost
