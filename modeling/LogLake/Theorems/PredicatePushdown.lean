import LogLake.Lemmas.Pushdown

/-! # Pushed predicates -/

namespace LogLake.Pushdown

section

variable {C : Chrono} {now : Instant} {schema : Text → Option DataType} {E : Engine} {R : Reader}

/-- A pushed predicate keeps every row on which its filter is TRUE. -/
theorem convertFilter_sound_of_pushable (hbytes : ComparesBytes E) {e : Expr} {p : Predicate}
    (hpush : Pushable C now schema E true e) (h : convertFilter C now schema e = some p) {row : Row}
    (hrow : TypedRow schema row) (htrue : E.IsTrue row e) : p.eval R row = some true :=
  eval_convert_of_pushable hbytes hpush h hrow htrue

theorem eval_foldl_and {p : Predicate} {ps : List Predicate} {row : Row} (hp : p.eval R row = some true)
    (hps : ∀ q ∈ ps, q.eval R row = some true) : (ps.foldl .and p).eval R row = some true := by
  induction ps generalizing p with
  | nil => exact hp
  | cons q ps ih =>
    rw [List.forall_mem_cons] at hps
    exact ih (Kleene.and_eq_true.mpr ⟨hp, hps.1⟩) hps.2

/-- A conjunction of filters is pushed as a predicate that keeps every row on which all of them are TRUE. -/
theorem convertFilters_sound (hbytes : ComparesBytes E) {filters : List Expr} {p : Predicate}
    (hpush : ∀ e ∈ filters, Pushable C now schema E true e) (h : convertFilters C now schema filters = some p) {row : Row}
    (hrow : TypedRow schema row) (htrue : ∀ e ∈ filters, E.IsTrue row e) : p.eval R row = some true := by
  have heach : ∀ q ∈ filters.filterMap (convertFilter C now schema), q.eval R row = some true := by
    intro q hq
    obtain ⟨e, he, hconvert⟩ := List.mem_filterMap.mp hq
    exact eval_convert_of_pushable hbytes (hpush e he) hconvert hrow (htrue e he)
  unfold convertFilters at h
  split at h
  · cases h
  · rename_i q qs hfilters
    rw [hfilters, List.forall_mem_cons] at heach
    cases h
    exact eval_foldl_and heach.1 heach.2

/-- An eligible filter is converted, and when its leaves are kept the predicate is TRUE exactly where the filter is. -/
theorem convertFilter_exact_of_eligible (hbytes : ComparesBytes E) {e : Expr}
    (heligible : exactPushdownEligible C now schema e = true) :
    ∃ p, convertFilter C now schema e = some p ∧ (LeavesKept C now schema E e →
      ∀ row, TypedRow schema row → (p.eval R row = some true ↔ E.IsTrue row e)) := by
  obtain ⟨p, hp⟩ := Option.isSome_iff_exists.mp ((isSome_convertFilter_iff e).mpr (supported_of_eligible heligible))
  refine ⟨p, hp, fun hkept row hrow => ?_⟩
  rw [eval_convert_of_leavesKept hbytes hkept heligible hp hrow, Engine.IsTrue]

end

/-! ## Filters on a table of events -/

def eventSchema (name : Text) : Option DataType :=
  if name = "status".toList then some (.int .int64)
  else if name = "raw".toList then some (.text .utf8)
  else if name = "timestamp".toList then some (.timestamp .microsecond none)
  else none

def eventEngine : Engine where
  cast
    | .timestamp u _, .timestamp u' v => .timestamp u (u'.convert u v)
    | _, _ => .null
  call _ _ _ := .null
  arith _ _ _ := .null
  negate _ := .null
  mixed
    | .binary a, .binary b => some (compareBytes a b)
    | _, _ => none
  ilike _ _ _ := false
  other _ _ := .bool false

def strictReader : Reader where
  compareOther _ _ := none
  startsWithOther _ _ := none

/-- A row with a status, a raw text and a number of microseconds. -/
def eventRow (status : I64) (raw : Text) (micros : I64) : Row := fun name =>
  if name = "status".toList then .int status.val
  else if name = "raw".toList then .text raw
  else if name = "timestamp".toList then .timestamp .microsecond micros.val
  else .null

theorem typedRow_eventRow (status : I64) (raw : Text) (micros : I64) :
    TypedRow eventSchema (eventRow status raw micros) := by
  intro name t h
  unfold eventSchema at h
  unfold eventRow
  split_ifs at h ⊢ <;> cases h
  · exact status.property
  · trivial
  · exact ⟨rfl, micros.property⟩

def longLiteral (v : Int) (h : IntType.int64.Fits v := by decide) : Expr := .literal (.int ⟨.int64, v, h⟩)

def timestampNs (v : Int) (h : IntType.int64.Fits v := by decide) : Expr :=
  .literal (.timestamp .nanosecond none ⟨v, h⟩)

def statusIsOne : Expr := .binary (.column "status".toList) .eq (longLiteral 1)

def supportedFilter : Expr :=
  .binary (.binary (.not statusIsOne) .and (.binary (.column "timestamp".toList) .gt (timestampNs 1500))) .and
    (.not (.other 0))

theorem comparesBytes_eventEngine : ComparesBytes eventEngine := fun _ _ => rfl

theorem statusIsOne_kept : LeafKept .unbounded 0 eventSchema eventEngine statusIsOne := by
  refine ⟨columnKept_of_column rfl ?_, columnKept_of_literal⟩
  intro literal hliteral
  obtain rfl := List.mem_singleton.mp hliteral
  exact constantKept_of_sameKind rfl trivial

theorem timestamp_kept (op : Operator) (v : I64) (hv : 0 ≤ v.val) : LeafKept .unbounded 0 eventSchema eventEngine
    (.binary (.column "timestamp".toList) op (timestampNs v.val v.property)) := by
  refine ⟨columnKept_of_column rfl ?_, columnKept_of_literal⟩
  intro literal hliteral
  obtain rfl := List.mem_singleton.mp hliteral
  exact constantKept_of_timestamp (by decide) (congrArg some (mul_one _).symm) (Or.inr ⟨rfl, by simpa [TimeUnit.nanos]⟩)

theorem supportedFilter_pushable : Pushable .unbounded 0 eventSchema eventEngine true supportedFilter :=
  ⟨⟨statusIsOne_kept, timestamp_kept .gt ⟨1500, by decide⟩ (by decide), fun h => (nomatch h)⟩, trivial,
    fun h => (nomatch h)⟩

/-- The predicate of the filter leaves `f` out and keeps a row of status 2 at two microseconds. -/
theorem supportedFilter_keeps_row :
    ∃ p, convertFilter .unbounded 0 eventSchema supportedFilter = some p ∧
      p.eval strictReader (eventRow ⟨2, by decide⟩ [] ⟨2, by decide⟩) = some true :=
  ⟨_, rfl, convertFilter_sound_of_pushable comparesBytes_eventEngine supportedFilter_pushable rfl
    (typedRow_eventRow _ _ _) (by unfold Engine.IsTrue; decide +kernel)⟩

def twoFilters : List Expr := [supportedFilter, .not (.other 0)]

/-- The second filter has no predicate. -/
theorem twoFilters_keep_row : ∃ p, convertFilters .unbounded 0 eventSchema twoFilters = some p ∧
      p.eval strictReader (eventRow ⟨2, by decide⟩ [] ⟨2, by decide⟩) = some true := by
  have hpush : ∀ e ∈ twoFilters, Pushable .unbounded 0 eventSchema eventEngine true e :=
    List.forall_mem_cons.mpr ⟨supportedFilter_pushable, List.forall_mem_singleton.mpr trivial⟩
  exact ⟨_, rfl, convertFilters_sound comparesBytes_eventEngine hpush rfl (typedRow_eventRow _ _ _)
    (by unfold Engine.IsTrue; decide +kernel)⟩

def negatedConjunction : Expr := .not (.binary statusIsOne .and (.other 0))

def escapedPercent : Expr := .like false (.column "raw".toList) (.literal (.text .utf8 ['a', '\\', '%'])) none false

/-- A row on which the filter is TRUE and its predicate FALSE. -/
def LosesRow (e : Expr) (row : Row) : Prop :=
  TypedRow eventSchema row ∧ eventEngine.IsTrue row e ∧
    ∃ p, convertFilter .unbounded 0 eventSchema e = some p ∧ p.eval strictReader row = some false

/-- Both filters lose a row of status 1 whose text is `a%`. -/
theorem convertFilter_loses_rows :
    LosesRow negatedConjunction (eventRow ⟨1, by decide⟩ ['a', '%'] ⟨0, by decide⟩) ∧
      LosesRow escapedPercent (eventRow ⟨1, by decide⟩ ['a', '%'] ⟨0, by decide⟩) := by
  unfold LosesRow Engine.IsTrue
  exact ⟨⟨typedRow_eventRow _ _ _, by decide +kernel, _, rfl, by decide +kernel⟩,
    ⟨typedRow_eventRow _ _ _, by decide +kernel, _, rfl, by decide +kernel⟩⟩

def eligibleFilter : Expr :=
  .binary (.not statusIsOne) .or (.binary (.column "timestamp".toList) .ltEq (timestampNs 1999))

/-- The scan answers for this filter alone, and rightly. -/
theorem eligibleFilter_exact :
    ∃ p, convertFilter .unbounded 0 eventSchema eligibleFilter = some p ∧ ∀ row, TypedRow eventSchema row →
      (p.eval strictReader row = some true ↔ eventEngine.IsTrue row eligibleFilter) := by
  obtain ⟨p, hp, hexact⟩ :=
    convertFilter_exact_of_eligible comparesBytes_eventEngine
      (show exactPushdownEligible .unbounded 0 eventSchema eligibleFilter = true by decide +kernel)
  exact ⟨p, hp, hexact ⟨statusIsOne_kept, timestamp_kept .ltEq ⟨1999, by decide⟩ (by decide)⟩⟩

def castColumn : Expr :=
  .binary (.cast (.column "timestamp".toList) (.timestamp .second none)) .eq
    (.literal (.timestamp .second none ⟨1, by decide⟩))

def coarserLiteral : Expr :=
  .binary (.column "timestamp".toList) .ltEq (.literal (.timestamp .second none ⟨1, by decide⟩))

def beforeEpoch : Expr := .binary (.column "timestamp".toList) .eq (timestampNs (-1))

/-- The scan answers for these filters alone. The first two lose a row at one and a half seconds and the last a row at
the epoch. -/
theorem eligible_filters_lose_rows :
    (∀ e ∈ [castColumn, coarserLiteral, beforeEpoch], exactPushdownEligible .unbounded 0 eventSchema e = true) ∧
      LosesRow castColumn (eventRow ⟨1, by decide⟩ [] ⟨1500000, by decide⟩) ∧
      LosesRow coarserLiteral (eventRow ⟨1, by decide⟩ [] ⟨1500000, by decide⟩) ∧
      LosesRow beforeEpoch (eventRow ⟨1, by decide⟩ [] ⟨0, by decide⟩) := by
  unfold LosesRow Engine.IsTrue
  simp only [List.forall_mem_cons]
  exact ⟨⟨by decide +kernel, by decide +kernel, by decide +kernel, fun _ h => (nomatch h)⟩,
    ⟨typedRow_eventRow _ _ _, by decide +kernel, _, rfl, by decide +kernel⟩,
    ⟨typedRow_eventRow _ _ _, by decide +kernel, _, rfl, by decide +kernel⟩,
    ⟨typedRow_eventRow _ _ _, by decide +kernel, _, rfl, by decide +kernel⟩⟩

end LogLake.Pushdown
