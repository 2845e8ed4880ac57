import LogLake.Lemmas.Sql
import LogLake.Time.Bounds

/-! # What the walk over a time clause keeps -/

namespace LogLake

open Option Prod IntType TimeUnit Comparison
open Engine (eval)

/-! ## What is assumed of the planner and of the engine -/

/-- The planner's casts, types and coercions, and the engine's casts, as far as timestamps are concerned. -/
structure Planner.Agrees (P : Planner) (E : Engine) : Prop where
  castTo_timestamp : ∀ (u : TimeUnit) (tz : Option Text) (v : I64) (s : ScalarValue),
    P.castTo (.timestamp u tz) (.timestamp .nanosecond none v) = some s →
      ∃ w : I64, s = .timestamp u tz w ∧ w.val = nanosecond.convert u v.val
  coercion_timestamp : ∀ (u u' : TimeUnit) (tz tz' : Option Text) (t : DataType),
    P.comparisonCoercion (.timestamp u tz) (.timestamp u' tz') = some t → ∃ tz'', t = .timestamp (u.coarser u') tz''
  typeOf_literal : ∀ v : ScalarValue, P.typeOf (.literal v) = some v.dataType
  typeOf_alias : ∀ (e : Expr) (name : Text), P.typeOf (.alias e name) = P.typeOf e
  typeOf_cast : ∀ (e : Expr) (t : DataType), P.typeOf (.cast e t) = some t
  cast_null : ∀ t : DataType, E.cast t .null = .null
  cast_timestamp : ∀ (u : TimeUnit) (tz : Option Text) (v : I64),
    E.cast (.timestamp u tz) (.timestamp u v.val) = .timestamp u v.val

/-- The timestamp columns of a row hold timestamps of their type, or NULL. -/
def Planner.Typed (P : Planner) (row : Row) : Prop :=
  ∀ (name : Text) (u : TimeUnit) (tz : Option Text), P.typeOf (.column name) = some (.timestamp u tz) →
    row name = .null ∨ ∃ v : I64, row name = .timestamp u v.val

/-- A cast between units converts the value, and is NULL where the result leaves 64 bits. -/
def Engine.ConvertsTimestamps (E : Engine) : Prop :=
  ∀ (u u' : TimeUnit) (tz : Option Text) (v : Int), E.cast (.timestamp u' tz) (.timestamp u v) =
    if int64.Fits (u.convert u' v) then .timestamp u' (u.convert u' v) else .null

namespace Cost

/-- The engine compares a timestamp with the constant as with the instant the source reads from it, in the unit of the
comparison, which is not finer than that of the timestamp. -/
def ReadsInstant (C : Chrono) (P : Planner) (now : Instant) (E : Engine) (literal : Expr) : Prop :=
  ∀ (t : Instant) (u uc : TimeUnit) (tz tzc : Option Text) (ty : DataType) (row : Row) (v : Int),
    extractTimestampAt C P now literal = some t → P.typeOf literal = some ty →
      P.comparisonCoercion (.timestamp u tz) ty = some (.timestamp uc tzc) →
        u.nanos ≤ uc.nanos ∧
          E.compare (.timestamp u v) (E.eval row literal) = some (cmp (u.convert uc v) (t.tdiv uc.nanos)) ∧
          E.compare (E.eval row literal) (.timestamp u v) = some (cmp (t.tdiv uc.nanos) (u.convert uc v))

section

variable {C : Chrono} {P : Planner} {now : Instant} {E : Engine}

theorem readsInstant_timestamp (hP : P.Agrees E) (u : TimeUnit) (tz : Option Text) (w : I64) :
    ReadsInstant C P now E (.literal (.timestamp u tz w)) := by
  intro t u' uc tz' tzc ty row v hextract hty hcoerce
  rw [hP.typeOf_literal] at hty
  cases hty
  obtain ⟨tz'', hcoarser⟩ := hP.coercion_timestamp u' u tz' tz _ hcoerce
  obtain ⟨rfl, -⟩ := DataType.timestamp.inj hcoarser
  have ht : t = w.val * u.nanos := by
    rw [extractTimestampAt, Chrono.literalTimestamp] at hextract
    unfold Chrono.ofUnits at hextract
    split at hextract
    · rw [← some.inj hextract]
      exact (mul_one _).symm
    · split at hextract
      · exact (some.inj hextract).symm
      · cases hextract
  have hsymm : u.coarser u' = u'.coarser u := by
    apply nanos_injective
    rw [nanos_coarser, nanos_coarser, max_comm]
  have hconvert : u.convert (u'.coarser u) w.val = t.tdiv (u'.coarser u).nanos := by
    rw [ht]
    exact convert_eq_tdiv (by rw [nanos_coarser]; exact le_max_right _ _) _
  refine ⟨by rw [nanos_coarser]; exact le_max_left _ _, ?_, ?_⟩
  · rw [eval, Value.ofScalar, Engine.compare, compareTimestamps, hconvert]
  · rw [eval, Value.ofScalar, Engine.compare, compareTimestamps, hsymm, hconvert]

end

/-! ## One comparison -/

/-- Every cast around the column keeps its unit. -/
def CastsKeepUnit (P : Planner) : Expr → Prop
  | .alias e _ => CastsKeepUnit P e
  | .cast e t => CastsKeepUnit P e ∧ (P.typeOf e).bind timestampStep = timestampStep t
  | _ => True

/-- The casts around the column keep its unit; or the engine converts between units, and no instant of the interval overflows in
nanoseconds. -/
def CastsReadable (P : Planner) (E : Engine) (interval : TimeRange) (column : Expr) : Prop :=
  CastsKeepUnit P column ∨ E.ConvertsTimestamps ∧ ∀ t, interval.Covers t → int64.Fits t

theorem timestampStep_eq_some {t : DataType} {step : Int} :
    timestampStep t = some step ↔ ∃ u tz, t = .timestamp u tz ∧ u.nanos = step := by
  cases t <;> simp [timestampStep]

section

variable {C : Chrono} {P : Planner} {now : Instant} {E : Engine} {interval : TimeRange}

/-- On a row the expression is the column in another unit: NULL where the column is, and otherwise its value in that unit. A cast
loses no value of the interval. -/
structure ReadsColumn (E : Engine) (interval : TimeRange) (row : Row) (column : Expr) (name : Text) (u uc : TimeUnit) : Prop where
  null : row name = .null → E.eval row column = .null
  value : ∀ v : I64, row name = .timestamp u v.val →
    (∃ w : I64, w.val = u.convert uc v.val ∧ E.eval row column = .timestamp uc w.val) ∨
      E.eval row column = .null ∧ ¬ interval.Covers (v.val * u.nanos)

/-- A timestamp column under casts is the column in a unit that is not coarser than its own. -/
theorem timestampColumn_spec (hP : P.Agrees E) {column : Expr} {name : Text} {step : Int}
    (h : timestampColumn P column = some (name, step)) (hcasts : CastsReadable P E interval column) :
    ∃ u tz uc tzc, P.typeOf (.column name) = some (.timestamp u tz) ∧ P.typeOf column = some (.timestamp uc tzc) ∧
      step = u.nanos ∧ uc.nanos ≤ u.nanos ∧ ∀ row, P.Typed row → ReadsColumn E interval row column name u uc := by
  fun_induction timestampColumn P column with
  | case1 n =>
    obtain ⟨t, htype, hstep⟩ := bind_eq_some_iff.mp h
    obtain ⟨s, hs, heq⟩ := map_eq_some_iff.mp hstep
    obtain ⟨u, tz, rfl, rfl⟩ := timestampStep_eq_some.mp hs
    obtain ⟨rfl, rfl⟩ := mk.inj heq
    refine ⟨u, tz, u, tz, htype, htype, rfl, le_rfl, fun row _ => ⟨fun hnull => by rw [eval, hnull], fun v hv => .inl ?_⟩⟩
    exact ⟨v, (convert_self u v.val).symm, by rw [eval, hv]⟩
  | case2 e n ih =>
    obtain ⟨u, tz, uc, tzc, hcol, htype, hstep, hle, hreads⟩ := ih h hcasts
    refine ⟨u, tz, uc, tzc, hcol, (hP.typeOf_alias e n).trans htype, hstep, hle, fun row hrow => ⟨?_, ?_⟩⟩
    · rw [eval]
      exact (hreads row hrow).null
    · rw [eval]
      exact (hreads row hrow).value
  | case3 e t ih =>
    obtain ⟨source, hsource, h⟩ := bind_eq_some_iff.mp h
    obtain ⟨target, htarget, h⟩ := bind_eq_some_iff.mp h
    split at h
    · rename_i hfiner
      cases h
      obtain ⟨u, tz, uc, tzc, hcol, htype, hstep, hle, hreads⟩ := ih hsource (hcasts.imp_left And.left)
      obtain ⟨u', tz', rfl, rfl⟩ := timestampStep_eq_some.mp htarget
      rw [hstep] at hfiner
      refine ⟨u, tz, u', tz', hcol, hP.typeOf_cast e _, hstep, hfiner, fun row hrow => ⟨fun hnull => ?_, fun v hv => ?_⟩⟩
      · rw [eval, (hreads row hrow).null hnull, hP.cast_null]
      rw [eval]
      rcases (hreads row hrow).value v hv with ⟨w, hw, hvalue⟩ | ⟨hnull, hlost⟩
      · rw [hvalue]
        rcases hcasts with hkeep | ⟨hconverts, hinterval⟩
        · have hunit := hkeep.2
          rw [htype, bind_some, htarget] at hunit
          obtain rfl : uc = u' := nanos_injective (some.inj hunit)
          exact .inl ⟨w, hw, hP.cast_timestamp uc tz' w⟩
        · rw [hconverts, hw, convert_convert hle hfiner]
          split
          · rename_i hfits
            exact .inl ⟨⟨_, hfits⟩, rfl, rfl⟩
          · rename_i hover
            exact .inr ⟨rfl, fun hcovers => hover (fits_convert hfiner (hinterval _ hcovers))⟩
      · rw [hnull, hP.cast_null]
        exact .inr ⟨rfl, hlost⟩
    · cases h
  | case4 => cases h

/-- An instant cast to a unit is truncated to it. -/
theorem castInstant_spec (hP : P.Agrees E) {t c : Instant} {u : TimeUnit} {tz : Option Text}
    (h : castInstant C P t (.timestamp u tz) = some c) : int64.Fits t ∧ c = t.tdiv u.nanos * u.nanos := by
  unfold castInstant at h
  split at h
  · rename_i hfits
    obtain ⟨s, hs, h⟩ := bind_eq_some_iff.mp h
    obtain ⟨w, rfl, hw⟩ := hP.castTo_timestamp u tz _ s hs
    rw [convert_eq_tdiv (by cases u <;> decide)] at hw
    have hw : w.val = t.tdiv u.nanos := by rw [hw]; exact congrArg (Int.tdiv · u.nanos) (mul_one t)
    refine ⟨hfits, ?_⟩
    rw [← hw]
    unfold Chrono.literalTimestamp Chrono.ofUnits at h
    dsimp only at h
    split at h
    · exact (some.inj h).symm.trans (mul_one _).symm
    · split at h
      · exact (some.inj h).symm
      · cases h
  · cases h

/-- What a comparison that the source reads is made of. -/
theorem timestampComparison_eq_some {column literal : Expr} {name : Text} {step : Int} {lit : Instant}
    (h : timestampComparison C P now column literal = some (name, step, lit)) :
    ∃ columnType literalType w tz t, timestampColumn P column = some (name, step) ∧ P.typeOf column = some columnType ∧
      P.typeOf literal = some literalType ∧ P.comparisonCoercion columnType literalType = some (.timestamp w tz) ∧
      w.nanos ≤ step ∧ extractTimestampAt C P now literal = some t ∧ castInstant C P t (.timestamp w tz) = some lit := by
  unfold timestampComparison at h
  obtain ⟨source, hsource, h⟩ := bind_eq_some_iff.mp h
  obtain ⟨columnType, hcolumn, h⟩ := bind_eq_some_iff.mp h
  obtain ⟨literalType, hliteral, h⟩ := bind_eq_some_iff.mp h
  obtain ⟨comparisonType, hcoerce, h⟩ := bind_eq_some_iff.mp h
  obtain ⟨comparisonStep, hstep, h⟩ := bind_eq_some_iff.mp h
  split at h
  · cases h
  rename_i hle
  obtain ⟨t, ht, h⟩ := bind_eq_some_iff.mp h
  obtain ⟨c, hc, h⟩ := map_eq_some_iff.mp h
  obtain ⟨rfl, hrest⟩ := mk.inj h
  obtain ⟨rfl, rfl⟩ := mk.inj hrest
  obtain ⟨w, tz, rfl, rfl⟩ := timestampStep_eq_some.mp hstep
  exact ⟨columnType, literalType, w, tz, t, hsource, hcolumn, hliteral, hcoerce, not_lt.mp hle, ht, hc⟩

end

/-! ## One bound -/

theorem covers_updateStart (bounds : TimeRange) (candidate : Option Instant) (t : Instant) :
    (updateStart bounds candidate).Covers t ↔ bounds.Covers t ∧ ∀ s ∈ candidate, s ≤ t := by
  obtain ⟨lo, hi⟩ := bounds
  cases candidate <;> cases lo <;> simp [updateStart, TimeRange.Covers]
  all_goals tauto

theorem covers_updateEnd (bounds : TimeRange) (candidate : Option Instant) (t : Instant) :
    (updateEnd bounds candidate).Covers t ↔ bounds.Covers t ∧ ∀ e ∈ candidate, t < e := by
  obtain ⟨lo, hi⟩ := bounds
  cases candidate <;> cases hi <;> simp [updateEnd, TimeRange.Covers]
  all_goals tauto

variable {step : Int}

/-- The values of the column before and after an instant fit 64 bits of nanoseconds. -/
def NeighboursFit (step : Int) (lit : Instant) : Prop := int64.min ≤ lit / step * step ∧ (lit / step + 1) * step ≤ int64.max

/-- Whether a comparison with an instant leaves a bound: the values next to it fit, where the operator needs them. -/
def KeepsBound (op : Operator) (step : Int) (lit : Instant) : Prop :=
  match op with
  | .gt => NeighboursFit step lit
  | .ltEq => step = 1 ∨ NeighboursFit step lit
  | _ => step ∣ lit ∨ NeighboursFit step lit

variable {lit : Instant}

theorem quantizeBound_of_dvd (hfits : int64.Fits lit) (hdvd : step ∣ lit) : quantizeBound lit step true = some lit := by
  have hchecked : int64.checked lit = some lit := if_pos hfits
  unfold quantizeBound timestampNanosOpt
  rw [hchecked, bind_some, Int.ediv_mul_cancel hdvd, hchecked, bind_some, Int.emod_eq_zero_of_dvd hdvd]
  rfl

/-- Rounding that is not on a value of the column goes to the next one. -/
theorem quantizeBound_next (hstep : 0 < step) (hfits : int64.Fits lit) {roundUp : Bool}
    (hround : ¬ (roundUp = true ∧ step ∣ lit)) (hnear : NeighboursFit step lit) :
    quantizeBound lit step roundUp = some ((lit / step + 1) * step) := by
  have hfloor := Int.ediv_mul_le lit hstep.ne'
  have hnext : lit / step * step + step = (lit / step + 1) * step := by rw [add_mul, one_mul]
  have hkeep : (roundUp && lit % step == 0) = false := by
    cases roundUp with
    | false => rfl
    | true => exact decide_eq_false fun hzero => hround ⟨rfl, Int.dvd_of_emod_eq_zero hzero⟩
  unfold quantizeBound timestampNanosOpt checked
  rw [if_pos hfits, bind_some, if_pos ⟨hnear.1, hfloor.trans hfits.2⟩, bind_some, hkeep, if_neg Bool.false_ne_true, hnext]
  refine if_pos ⟨?_, hnear.2⟩
  have := hnear.1
  rw [← hnext]
  omega

/-- A value of the column is below the next one after an instant when it is not after the instant. -/
theorem mul_lt_next (hstep : 0 < step) (v : Int) : v * step < (lit / step + 1) * step ↔ v * step ≤ lit := by
  rw [Int.mul_lt_mul_right hstep, Int.lt_add_one_iff, Int.le_ediv_iff_mul_le hstep]

/-- A comparison narrows the bounds to the values it accepts. -/
theorem covers_applyComparison {op : Operator} {accepts : Ordering → Bool} (hrange : isRangeOp op = true)
    (hop : op.holds = some accepts) (hstep : 0 < step) (hfits : int64.Fits lit) (hkeeps : KeepsBound op step lit)
    (bounds : TimeRange) (v : I64) : (applyComparison bounds step op lit).Covers (v.val * step) ↔
      bounds.Covers (v.val * step) ∧ accepts (cmp (v.val * step) lit) = true := by
  -- a value of the column is not an instant between two of them
  have hne : ¬ step ∣ lit → v.val * step ≠ lit := fun hdvd heq => hdvd (heq ▸ Int.dvd_mul_left _ _)
  have hdown : ¬ (false = true ∧ step ∣ lit) := fun h => Bool.false_ne_true h.1
  cases op <;> first | exact absurd hrange Bool.false_ne_true | obtain rfl := some.inj hop
  case lt =>
    rw [applyComparison, covers_updateEnd, isLT_cmp]
    by_cases hdvd : step ∣ lit
    · simp [quantizeBound_of_dvd hfits hdvd]
    · simp [quantizeBound_next hstep hfits (fun h => hdvd h.2) (hkeeps.resolve_left hdvd), mul_lt_next hstep,
        (hne hdvd).le_iff_lt]
  case ltEq =>
    rw [applyComparison, covers_updateEnd, isLE_cmp]
    by_cases hnear : NeighboursFit step lit
    · simp [quantizeBound_next hstep hfits hdown hnear, mul_lt_next hstep]
    · -- only a nanosecond column can lose the bound here, and then every value is below it
      obtain rfl : step = 1 := hkeeps.resolve_right hnear
      have hmax : int64.max ≤ lit := by
        unfold NeighboursFit at hnear
        rw [Int.ediv_one, mul_one, mul_one] at hnear
        exact not_lt.mp fun hlt => hnear ⟨hfits.1, hlt⟩
      have hlost : quantizeBound lit 1 false = none := by
        unfold quantizeBound timestampNanosOpt checked
        rw [if_pos hfits, bind_some, Int.ediv_one, mul_one, if_pos hfits, bind_some, Bool.false_and, if_neg Bool.false_ne_true]
        refine if_neg fun hnext => ?_
        have := hnext.2
        omega
      have hle : v.val ≤ lit := v.property.2.trans hmax
      rw [hlost]
      simp [hle]
  case gt =>
    rw [applyComparison, covers_updateStart, quantizeBound_next hstep hfits hdown hkeeps, isGT_cmp, ← not_le,
      ← mul_lt_next hstep]
    simp
  case gtEq =>
    rw [applyComparison, covers_updateStart, isGE_cmp]
    by_cases hdvd : step ∣ lit
    · simp [quantizeBound_of_dvd hfits hdvd]
    · rw [quantizeBound_next hstep hfits (fun h => hdvd h.2) (hkeeps.resolve_left hdvd), (hne hdvd).symm.le_iff_lt, ← not_le,
        ← mul_lt_next hstep]
      simp

/-! ## The clauses that are intervals -/

section

variable (C : Chrono) (P : Planner) (now : Instant) (E : Engine) (interval : TimeRange)

/-- What the walk takes for granted when it reads a comparison: the engine reads the constant as the source does, the
casts around the column lose no value of the interval, and the bound is not lost. -/
def LeafReadable (column : Expr) (op : Operator) (literal : Expr) : Prop :=
  ReadsInstant C P now E literal ∧ ∀ name step lit, timestampComparison C P now column literal = some (name, step, lit) →
    CastsReadable P E interval column ∧ KeepsBound op step lit

/-- Every comparison of a clause is readable. -/
def Readable : Expr → Prop
  | .binary l .and r => Readable l ∧ Readable r
  | .binary l op r =>
    isRangeOp op = true → LeafReadable C P now E interval l op r ∧ LeafReadable C P now E interval r (flipOp op) l
  | .between e false low high => LeafReadable C P now E interval e .gtEq low ∧ LeafReadable C P now E interval e .ltEq high
  | _ => True

/-- The column of the event time. -/
def timestampName : Text := "timestamp".toList

/-- A timestamp column is the event time. -/
def OnTimestamp (e : Expr) : Prop := ∀ name step, timestampColumn P e = some (name, step) → name = timestampName

/-- A condition taken to be constantly true is TRUE. -/
def ConstantHolds (e : Expr) : Prop := constantTrueExpr e = some true → ∀ row, E.IsTrue row e

/-- The clauses whose comparisons are all on the event time and whose other conditions are TRUE. -/
def IntervalLike : Expr → Prop
  | .binary l .and r => IntervalLike l ∧ IntervalLike r
  | .binary l op r => (isRangeOp op = true → OnTimestamp P l ∧ OnTimestamp P r) ∧ ConstantHolds E (.binary l op r)
  | .between e _ _ _ => OnTimestamp P e
  | e => ConstantHolds E e

end

section

variable {C : Chrono} {P : Planner} {now : Instant} {E : Engine} {interval : TimeRange}

/-- What one comparison of the clause says on a row: NULL where its column is NULL, and otherwise the comparison of the
column's instant with the constant's, which no cast loses in the interval. -/
structure LeafReading (P : Planner) (E : Engine) (interval : TimeRange) (leaf : Expr) (name : Text) (step : Int) (op : Operator)
    (lit : Instant) (u : TimeUnit) (accepts : Ordering → Bool) : Prop where
  typeOf : ∃ tz, P.typeOf (.column name) = some (.timestamp u tz)
  step_eq : step = u.nanos
  fits : int64.Fits lit
  keeps : KeepsBound op step lit
  range : isRangeOp op = true
  holds : op.holds = some accepts
  eval_null : ∀ row, P.Typed row → row name = .null → E.eval row leaf = .null
  eval_timestamp : ∀ row (v : I64), P.Typed row → row name = .timestamp u v.val →
    E.eval row leaf = .bool (accepts (cmp (v.val * u.nanos) lit)) ∨
      E.eval row leaf = .null ∧ ¬ interval.Covers (v.val * u.nanos)

variable {op : Operator}

theorem exists_holds (h : isRangeOp op = true) : ∃ accepts, op.holds = some accepts := by
  cases op <;> first | exact absurd h Bool.false_ne_true | exact ⟨_, rfl⟩

variable {accepts : Ordering → Bool}

theorem holds_flipOp (h : isRangeOp op = true) (hop : op.holds = some accepts) :
    isRangeOp (flipOp op) = true ∧ ∃ flipped, (flipOp op).holds = some flipped ∧
      ∀ a b : Int, accepts (cmp a b) = flipped (cmp b a) := by
  cases op <;> first | exact absurd h Bool.false_ne_true | obtain rfl := some.inj hop
  all_goals
    refine ⟨rfl, _, rfl, fun a b => ?_⟩
    rw [← cmp_swap b a]
    cases cmp b a <;> rfl

theorem eval_binary_range (h : isRangeOp op = true) (hop : op.holds = some accepts) (row : Row) (l r : Expr) :
    E.eval row (.binary l op r) = .ofTruth (E.compareOp accepts (E.eval row l) (E.eval row r)) := by
  cases op <;> first | exact absurd h Bool.false_ne_true | (obtain rfl := some.inj hop; rfl)

variable {e : Expr} {t : Instant}

theorem timestampColumn_of_extract (h : extractTimestampAt C P now e = some t) : timestampColumn P e = none := by
  fun_induction timestampColumn P e generalizing t with
  | case1 => cases h
  | case2 e n ih => exact ih (by rwa [extractTimestampAt] at h)
  | case3 e ty ih =>
    have hinner : timestampColumn P e = none := by
      cases e with
      | literal => rfl
      | _ =>
        obtain ⟨t', ht', -⟩ := bind_eq_some_iff.mp h
        exact ih ht'
    rw [hinner, bind_none]
  | case4 => rfl

variable {name : Text}

theorem timestampColumn_of_comparison {column literal : Expr}
    (h : timestampComparison C P now column literal = some (name, step, lit)) :
    timestampColumn P column = some (name, step) ∧ timestampColumn P literal = none := by
  obtain ⟨_, _, _, _, _, hcolumn, -, -, -, -, hextract, -⟩ := timestampComparison_eq_some h
  exact ⟨hcolumn, timestampColumn_of_extract hextract⟩

/-- The value of a leaf follows from that of its column, compared with its constant in either order. -/
def FollowsColumn (E : Engine) (leaf column literal : Expr) (accepts : Ordering → Bool) : Prop :=
  ∀ row, (E.eval row column = .null → E.eval row leaf = .null) ∧
    ∀ v w : Int, E.compare (E.eval row column) (E.eval row literal) = some (cmp v w) →
      E.compare (E.eval row literal) (E.eval row column) = some (cmp w v) → E.eval row leaf = .bool (accepts (cmp v w))

variable {leaf : Expr}

theorem leafReadable_spec (hP : P.Agrees E) {column literal : Expr} (hrange : isRangeOp op = true) (hop : op.holds = some accepts)
    (hread : LeafReadable C P now E interval column op literal)
    (h : timestampComparison C P now column literal = some (name, step, lit))
    (hleaf : FollowsColumn E leaf column literal accepts) :
    ∃ u, LeafReading P E interval leaf name step op lit u accepts := by
  obtain ⟨hcasts, hkeeps⟩ := hread.2 name step lit h
  obtain ⟨columnType, literalType, w, tzw, t, hsource, hcolumn, hliteral, hcoerce, hle, ht, hc⟩ := timestampComparison_eq_some h
  obtain ⟨u, tz, uc, tzc, hcol, htype, hstep, hfiner, hcasted⟩ := timestampColumn_spec hP hsource hcasts
  obtain rfl : columnType = .timestamp uc tzc := some.inj (hcolumn.symm.trans htype)
  obtain ⟨hfits, hlit⟩ := castInstant_spec hP hc
  rw [hstep] at hle
  refine ⟨u, ⟨⟨tz, hcol⟩, hstep, hlit ▸ fits_tdiv_mul hfits w, hkeeps, hrange, hop, ?_, ?_⟩⟩
  · intro row hrow hnull
    exact (hleaf row).1 ((hcasted row hrow).null hnull)
  · intro row v hrow hv
    refine ((hcasted row hrow).value v hv).imp ?_ fun hlost => ⟨(hleaf row).1 hlost.1, hlost.2⟩
    rintro ⟨x, hx, hvalue⟩
    -- the engine compares in the unit `w`; times that unit, both sides are instants
    obtain ⟨-, hleft, hright⟩ := hread.1 t uc w tzc tzw literalType row x.val ht hliteral hcoerce
    rw [hx, convert_convert hfiner hle, ← cmp_mul_pos_right (nanos_pos w), convert_mul_nanos hle, ← hlit, ← hx, ← hvalue]
      at hleft hright
    exact (hleaf row).2 _ _ hleft hright

theorem followsColumn_left (hrange : isRangeOp op = true)
    (hop : op.holds = some accepts) (l r : Expr) : FollowsColumn E (.binary l op r) l r accepts := by
  intro row
  rw [eval_binary_range hrange hop]
  refine ⟨fun hnull => by rw [hnull]; rfl, fun v w hcompare _ => ?_⟩
  rw [Engine.compareOp, hcompare]
  rfl

theorem followsColumn_right {flipped : Ordering → Bool} (hrange : isRangeOp op = true)
    (hop : op.holds = some accepts) (hflip : ∀ a b : Int, accepts (cmp a b) = flipped (cmp b a)) (l r : Expr) :
    FollowsColumn E (.binary l op r) r l flipped := by
  intro row
  rw [eval_binary_range hrange hop]
  refine ⟨fun hnull => by rw [hnull, Engine.compareOp, Engine.compare_null_right]; rfl, fun v w _ hcompare => ?_⟩
  rw [Engine.compareOp, hcompare, ← hflip]
  rfl

variable {l r : Expr}

/-- A range comparison is read, whichever side the column is on. -/
theorem rangeComparison_spec (hP : P.Agrees E) {op' : Operator} (hrange : isRangeOp op = true)
    (hread : LeafReadable C P now E interval l op r ∧ LeafReadable C P now E interval r (flipOp op) l)
    (h : rangeComparison C P now l op r = some (name, step, op', lit)) :
    ∃ u accepts, LeafReading P E interval (.binary l op r) name step op' lit u accepts := by
  obtain ⟨accepts, hop⟩ := exists_holds hrange
  unfold rangeComparison at h
  rcases or_eq_some_iff.mp h with h | ⟨-, h⟩
  · obtain ⟨c, hc, heq⟩ := map_eq_some_iff.mp h
    obtain ⟨rfl, rfl, rfl, rfl⟩ : c.1 = name ∧ c.2.1 = step ∧ op = op' ∧ c.2.2 = lit := by simpa using heq
    obtain ⟨u, hreading⟩ :=
      leafReadable_spec hP hrange hop hread.1 hc (followsColumn_left hrange hop l r)
    exact ⟨u, accepts, hreading⟩
  · obtain ⟨c, hc, heq⟩ := map_eq_some_iff.mp h
    obtain ⟨rfl, rfl, rfl, rfl⟩ : c.1 = name ∧ c.2.1 = step ∧ flipOp op = op' ∧ c.2.2 = lit := by simpa using heq
    obtain ⟨hrange', flipped, hop', hflip⟩ := holds_flipOp hrange hop
    obtain ⟨u, hreading⟩ :=
      leafReadable_spec hP hrange' hop' hread.2 hc (followsColumn_right hrange hop hflip l r)
    exact ⟨u, flipped, hreading⟩

/-! ## The whole clause -/

/-- What a condition on the bounds means on a row: on a value of the event time the narrowed bounds are the bounds and
the condition, as far as they are in the interval; on NULL the condition is not TRUE, unless it leaves the bounds alone. -/
structure Narrows (P : Planner) (E : Engine) (interval : TimeRange) (unit : TimeUnit) (e : Expr)
    (bounds narrowed : TimeRange) : Prop where
  covers : ∀ row (v : I64), P.Typed row → row timestampName = .timestamp unit v.val →
    bounds.Covers (v.val * unit.nanos) → E.IsTrue row e → narrowed.Covers (v.val * unit.nanos)
  value : ∀ row (v : I64), P.Typed row → row timestampName = .timestamp unit v.val → narrowed.Covers (v.val * unit.nanos) →
    bounds.Covers (v.val * unit.nanos) ∧ (interval.Covers (v.val * unit.nanos) → E.IsTrue row e)
  null : ∀ row, P.Typed row → row timestampName = .null → narrowed = bounds ∨ ¬ E.IsTrue row e

theorem narrows_constant (unit : TimeUnit) (bounds : TimeRange) (h : ∀ row, E.IsTrue row e) :
    Narrows P E interval unit e bounds bounds where
  covers _ _ _ _ hcovers _ := hcovers
  value row _ _ _ hcovers := ⟨hcovers, fun _ => h row⟩
  null _ _ _ := Or.inl rfl

variable {unit : TimeUnit}

theorem Narrows.and {b b' b'' : TimeRange} (hl : Narrows P E interval unit l b b')
    (hr : Narrows P E interval unit r b' b'') : Narrows P E interval unit (.binary l .and r) b b'' where
  covers row v hrow hv hcovers htrue := by
    obtain ⟨htl, htr⟩ := Engine.isTrue_and.mp htrue
    exact hr.covers row v hrow hv (hl.covers row v hrow hv hcovers htl) htr
  value row v hrow hv hcovers := by
    obtain ⟨hmiddle, htr⟩ := hr.value row v hrow hv hcovers
    obtain ⟨houter, htl⟩ := hl.value row v hrow hv hmiddle
    exact ⟨houter, fun hin => Engine.isTrue_and.mpr ⟨htl hin, htr hin⟩⟩
  null row hrow hnull := by
    rw [Engine.isTrue_and]
    rcases hl.null row hrow hnull with rfl | hfalse
    · exact (hr.null row hrow hnull).imp_right fun h hand => h hand.2
    · exact .inr fun hand => hfalse hand.1

/-- One comparison narrows the bounds to what it says. -/
theorem LeafReading.narrows {u : TimeUnit} {tz : Option Text}
    (htype : P.typeOf (.column timestampName) = some (.timestamp unit tz))
    (h : LeafReading P E interval leaf timestampName step op lit u accepts) (bounds : TimeRange) :
    Narrows P E interval unit leaf bounds (applyComparison bounds step op lit) := by
  obtain ⟨tz', htype'⟩ := h.typeOf
  rw [htype] at htype'
  obtain ⟨rfl, -⟩ := DataType.timestamp.inj (some.inj htype')
  obtain rfl := h.step_eq
  have hcovers := covers_applyComparison h.range h.holds (nanos_pos unit) h.fits h.keeps bounds
  have hfalse : ∀ row, E.eval row leaf = .null → ¬ E.IsTrue row leaf := by
    intro row hnull
    unfold Engine.IsTrue
    rw [hnull]
    exact some_ne_none _ ∘ Eq.symm
  have htrue : ∀ row b, E.eval row leaf = .bool b → (E.IsTrue row leaf ↔ b = true) := by
    intro row b heval
    unfold Engine.IsTrue
    rw [heval, Value.truth, some_inj]
  refine ⟨fun row v hrow hv hcov his => ?_, fun row v hrow hv hcov => ?_, fun row hrow hnull => .inr ?_⟩
  · rcases h.eval_timestamp row v hrow hv with heval | ⟨heval, -⟩
    · exact (hcovers v).mpr ⟨hcov, (htrue row _ heval).mp his⟩
    · exact absurd his (hfalse row heval)
  · obtain ⟨hcov, haccepts⟩ := (hcovers v).mp hcov
    refine ⟨hcov, fun hin => ?_⟩
    rcases h.eval_timestamp row v hrow hv with heval | ⟨-, hlost⟩
    · exact (htrue row _ heval).mpr haccepts
    · exact absurd hin hlost
  · exact hfalse row (h.eval_null row hrow hnull)

variable {row : Row}

theorem isTrue_between {low high : Expr} : E.IsTrue row (.between e false low high) ↔
      E.IsTrue row (.binary (.binary e .gtEq low) .and (.binary e .ltEq high)) := by
  rw [Engine.isTrue_and]
  unfold Engine.IsTrue
  rw [eval_binary_range rfl rfl, eval_binary_range rfl rfl, Value.truth_ofTruth, Value.truth_ofTruth, eval,
    Value.truth_ofTruth, negateIf, if_neg Bool.false_ne_true, Engine.between, Kleene.and_eq_true]

theorem eq_some_true_of_getD {b : Option Bool} (h : b.getD false = true) : b = some true := by
  cases b with
  | none => cases h
  | some b => exact congrArg some h

theorem Readable.leaves (h : Readable C P now E interval (.binary l op r)) (hop : op = .and → False)
    (hrange : isRangeOp op = true) :
    LeafReadable C P now E interval l op r ∧ LeafReadable C P now E interval r (flipOp op) l := by
  cases op
  case and => exact (hop rfl).elim
  all_goals exact h hrange

theorem IntervalLike.columns (h : IntervalLike P E (.binary l op r))
    (hop : op = .and → False) (hrange : isRangeOp op = true) : OnTimestamp P l ∧ OnTimestamp P r := by
  cases op
  case and => exact (hop rfl).elim
  all_goals exact h.1 hrange

theorem IntervalLike.constant (h : IntervalLike P E e) (he : ∀ l r, e = .binary l .and r → False)
    (hconst : (constantTrueExpr e).getD false = true) (row : Row) : E.IsTrue row e := by
  have hholds : ConstantHolds E e := by
    cases e with
    | binary l op r =>
      cases op
      case and => exact (he l r rfl).elim
      all_goals exact h.2
    | between => exact fun hconst => nomatch hconst
    | _ => exact h
  exact hholds (eq_some_true_of_getD hconst) row

theorem name_of_rangeComparison {op' : Operator} (h : rangeComparison C P now l op r = some (name, step, op', lit)) :
    (timestampColumn P l = some (name, step) ∧ timestampColumn P r = none) ∨
      (timestampColumn P r = some (name, step) ∧ timestampColumn P l = none) := by
  unfold rangeComparison at h
  rcases or_eq_some_iff.mp h with h | ⟨-, h⟩ <;> obtain ⟨c, hc, heq⟩ := map_eq_some_iff.mp h
  · obtain ⟨rfl, rfl, -⟩ : c.1 = name ∧ c.2.1 = step ∧ _ := by simpa using heq
    exact .inl (timestampColumn_of_comparison hc)
  · obtain ⟨rfl, rfl, -⟩ : c.1 = name ∧ c.2.1 = step ∧ _ := by simpa using heq
    exact .inr (timestampColumn_of_comparison hc)

variable {bounds narrowed : TimeRange}

theorem between_spec (hP : P.Agrees E) {low high : Expr} (hread : Readable C P now E interval (.between e false low high))
    (h : walkExactTimePredicate C P now bounds (.between e false low high) = some narrowed) :
    ∃ name step lo hi, timestampColumn P e = some (name, step) ∧
      (∃ u, LeafReading P E interval (.binary e .gtEq low) name step .gtEq lo u Ordering.isGE) ∧
      (∃ u, LeafReading P E interval (.binary e .ltEq high) name step .ltEq hi u Ordering.isLE) ∧
      narrowed = applyComparison (applyComparison bounds step .gtEq lo) step .ltEq hi := by
  rw [walkExactTimePredicate] at h
  obtain ⟨⟨name, step, lo⟩, hlow, h⟩ := bind_eq_some_iff.mp h
  dsimp only at h
  split at h
  · obtain ⟨⟨name', step', hi⟩, hhigh, hbounds⟩ := bind_eq_some_iff.mp h
    dsimp only at hbounds
    split at hbounds
    · cases hbounds
    · rename_i hsame
      obtain ⟨rfl, rfl⟩ : name' = name ∧ step' = step := by simpa using hsame
      have hge : FollowsColumn E (.binary e .gtEq low) e low Ordering.isGE := followsColumn_left rfl rfl e low
      have hle : FollowsColumn E (.binary e .ltEq high) e high Ordering.isLE := followsColumn_left rfl rfl e high
      obtain ⟨u, hleft⟩ := leafReadable_spec hP rfl rfl hread.1 hlow hge
      obtain ⟨u', hright⟩ := leafReadable_spec hP rfl rfl hread.2 hhigh hle
      exact ⟨name', step', lo, hi, (timestampColumn_of_comparison hlow).1, ⟨u, hleft⟩, ⟨u', hright⟩,
        (some.inj hbounds).symm⟩
  · cases h

/-- The walk over a clause narrows the bounds to what it says. -/
theorem walk_narrows (hP : P.Agrees E) {tz : Option Text}
    (htype : P.typeOf (.column timestampName) = some (.timestamp unit tz))
    (hread : Readable C P now E interval e) (hlike : IntervalLike P E e)
    (h : walkExactTimePredicate C P now bounds e = some narrowed) :
    Narrows P E interval unit e bounds narrowed := by
  fun_induction walkExactTimePredicate C P now bounds e generalizing narrowed with
  | case1 bounds l r ihl ihr =>
    obtain ⟨middle, hl, hr⟩ := bind_eq_some_iff.mp h
    exact (ihl hread.1 hlike.1 hl).and (ihr middle hread.2 hlike.2 hr)
  | case2 bounds l op r hop hrange name step op' lit hcomparison =>
    cases h
    obtain ⟨u, accepts, hreading⟩ := rangeComparison_spec hP hrange (hread.leaves hop hrange) hcomparison
    obtain rfl : name = timestampName :=
      (name_of_rangeComparison hcomparison).elim (fun h => (hlike.columns hop hrange).1 name step h.1)
        fun h => (hlike.columns hop hrange).2 name step h.1
    exact hreading.narrows htype bounds
  | case4 bounds l op r hop _ _ hconst | case6 bounds l op r hop _ hconst =>
    cases h
    exact narrows_constant unit bounds (hlike.constant (fun _ _ heq => hop (Expr.binary.inj heq).2.1) hconst)
  | case8 bounds e low high =>
    obtain ⟨name, step, lo, hi, hcolumn, ⟨u, hleft⟩, ⟨u', hright⟩, rfl⟩ := between_spec hP hread h
    obtain rfl : name = timestampName := hlike name step hcolumn
    obtain ⟨hcovers, hvalue, hnull⟩ := (hleft.narrows htype bounds).and (hright.narrows htype _)
    refine ⟨fun row v hrow hv hcov htrue => hcovers row v hrow hv hcov (isTrue_between.mp htrue), fun row v hrow hv hcov => ?_,
      fun row hrow hv => ?_⟩
    · exact (hvalue row v hrow hv hcov).imp_right fun h hin => isTrue_between.mpr (h hin)
    · rw [isTrue_between]
      exact hnull row hrow hv
  | case9 bounds e he _ _ hconst =>
    cases h
    exact narrows_constant unit bounds (hlike.constant he hconst)
  | case3 | case5 | case7 | case10 => cases h

/-! ## Clauses that are not intervals -/

theorem eval_literalScalarValue {v : ScalarValue} (h : literalScalarValue e = some v) (row row' : Row) :
    E.eval row e = E.eval row' e := by
  fun_induction literalScalarValue e with
  | case1 => rw [eval, eval]
  | case2 e t ih | case3 e n ih => rw [eval, eval, ih h]
  | case4 => cases h

theorem eval_constantTrueExpr {b : Bool} (h : constantTrueExpr e = some b) (row row' : Row) :
    E.eval row e = E.eval row' e := by
  fun_induction constantTrueExpr e with
  | case1 | case2 => rw [eval, eval]
  | case3 e t ih | case4 e n ih => rw [eval, eval, ih h]
  | case5 l op r =>
    obtain ⟨left, hleft, h⟩ := bind_eq_some_iff.mp h
    obtain ⟨right, hright, -⟩ := bind_eq_some_iff.mp h
    rw [eval, eval, eval_literalScalarValue hleft row row', eval_literalScalarValue hright row row']
  | case6 => cases h

theorem constantTrueExpr_range (h : isRangeOp op = true) : constantTrueExpr (.binary l op r) = none := by
  rw [constantTrueExpr]
  cases literalScalarValue l <;> cases literalScalarValue r <;> cases op <;>
    first | rfl | exact absurd h Bool.false_ne_true

theorem constantHolds_of_isTrue (h : E.IsTrue row e) : ConstantHolds E e := by
  intro hconst row'
  unfold Engine.IsTrue
  rw [eval_constantTrueExpr hconst row' row]
  exact h

theorem LeafReading.name_eq {u : TimeUnit} (h : LeafReading P E interval leaf name step op lit u accepts)
    (hrow : P.Typed row) (hothers : ∀ n, n ≠ timestampName → row n = .null) (htrue : E.IsTrue row leaf) :
    name = timestampName := by
  by_contra hne
  unfold Engine.IsTrue at htrue
  rw [h.eval_null row hrow (hothers name hne)] at htrue
  cases htrue

theorem onTimestamp_of_eq (h : timestampColumn P e = some (name, step))
    (hname : name = timestampName) : OnTimestamp P e := by
  intro name' step' h'
  rw [h] at h'
  exact (mk.inj (some.inj h')).1 ▸ hname

theorem onTimestamp_of_none (h : timestampColumn P e = none) : OnTimestamp P e := by
  intro name step h'
  rw [h] at h'
  cases h'

/-- A clause that is accepted and can be TRUE is an interval of the event time. -/
theorem intervalLike_of_isTrue (hP : P.Agrees E)
    (hread : Readable C P now E interval e) (h : walkExactTimePredicate C P now bounds e = some narrowed)
    (hrow : P.Typed row) (hothers : ∀ n, n ≠ timestampName → row n = .null) (htrue : E.IsTrue row e) :
    IntervalLike P E e := by
  fun_induction walkExactTimePredicate C P now bounds e generalizing narrowed with
  | case1 bounds l r ihl ihr =>
    obtain ⟨middle, hl, hr⟩ := bind_eq_some_iff.mp h
    obtain ⟨htl, htr⟩ := Engine.isTrue_and.mp htrue
    exact ⟨ihl hread.1 hl htl, ihr middle hread.2 hr htr⟩
  | case2 bounds l op r hop hrange name step op' lit hcomparison =>
    obtain ⟨u, accepts, hreading⟩ := rangeComparison_spec hP hrange (hread.leaves hop hrange) hcomparison
    have hname := hreading.name_eq hrow hothers htrue
    have hcolumns : OnTimestamp P l ∧ OnTimestamp P r := by
      rcases name_of_rangeComparison hcomparison with ⟨hcol, hlit⟩ | ⟨hcol, hlit⟩
      · exact ⟨onTimestamp_of_eq hcol hname, onTimestamp_of_none hlit⟩
      · exact ⟨onTimestamp_of_none hlit, onTimestamp_of_eq hcol hname⟩
    cases op
    case and => exact (hop rfl).elim
    all_goals exact ⟨fun _ => hcolumns, constantHolds_of_isTrue htrue⟩
  | case4 bounds l op r _ hrange _ hconst =>
    rw [constantTrueExpr_range hrange] at hconst
    cases hconst
  | case6 bounds l op r hop hrange hconst =>
    cases op
    case and => exact (hop rfl).elim
    all_goals exact ⟨fun h => absurd h hrange, constantHolds_of_isTrue htrue⟩
  | case8 bounds e low high =>
    obtain ⟨name, step, lo, hi, hcolumn, ⟨u, hleft⟩, -⟩ := between_spec hP hread h
    exact onTimestamp_of_eq hcolumn (hleft.name_eq hrow hothers (Engine.isTrue_and.mp (isTrue_between.mp htrue)).1)
  | case9 bounds e he hbin hbetween hconst =>
    cases e with
    | binary l op r => exact (hbin l op r rfl).elim
    | between => cases hconst
    | _ => exact constantHolds_of_isTrue htrue
  | case3 | case5 | case7 | case10 => cases h

end

end Cost

end LogLake
