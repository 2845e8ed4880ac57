import LogLake.Lemmas.Like
import LogLake.Lemmas.Sql
import LogLake.Pushdown

/-! # What the converter keeps -/

namespace LogLake

open List Bool
open Option (map_eq_some_iff bind_eq_some_iff isSome_iff_exists)
open Engine (eval)
open Value (ofScalar truth_ofTruth)
open Ordering (isEq)

def DataType.HasValue : DataType → Value → Prop
  | _, .null => True
  | .boolean, .bool _ => True
  | .int t, .int v => t.Fits v
  | .float32, .float _ | .float64, .float _ => True
  | .text _, .text _ => True
  | .binary, .binary _ | .largeBinary, .binary _ => True
  | .date32, .date _ => True
  | .date64, .date64 _ => True
  | .timestamp u _, .timestamp u' v => u' = u ∧ IntType.int64.Fits v
  | .interval, .interval _ => True
  | .nested _, .other _ _ | .other _, .other _ _ => True
  | _, _ => False

namespace Pushdown

def TypedRow (schema : Text → Option DataType) (row : Row) : Prop :=
  ∀ name t, schema name = some t → t.HasValue (row name)

/-! ## Conditions on a filter -/

def CastFree : Expr → Prop
  | .column _ => True
  | .alias e _ => CastFree e
  | _ => False

def aliasedLiteral : Expr → Option ScalarValue
  | .literal v => some v
  | .alias e _ => aliasedLiteral e
  | _ => none

/-- A literal of the kind of a column. -/
def SameKind : DataType → ScalarValue → Prop
  | .boolean, .boolean _ => True
  | .int _, .int _ => True
  | .float32, .float32 _ | .float32, .float64 _ | .float64, .float32 _ | .float64, .float64 _ => True
  | .text _, .text _ _ => True
  | .binary, .binary _ | .binary, .largeBinary _ | .largeBinary, .binary _ | .largeBinary, .largeBinary _ => True
  | .date32, .date32 _ => True
  | _, _ => False

/-- The engine compares a timestamp of the unit with the constant as with the instant, truncated to the unit. -/
def ReadsInstant (E : Engine) (u : TimeUnit) (literal : Expr) (t : Instant) : Prop :=
  ∀ row v, E.compare (.timestamp u v) (E.eval row literal) = some (cmp v (t.tdiv u.nanos)) ∧
    E.compare (E.eval row literal) (.timestamp u v) = some (cmp (t.tdiv u.nanos) v)

/-- An instant that loses nothing, or only what truncation loses too, when it becomes a datum for a column of the unit. -/
def KeptInstant (u : TimeUnit) (t : Instant) : Prop := u.nanos ∣ t ∨ (u = .microsecond ∧ 0 ≤ t)

section

variable (C : Chrono) (now : Instant) (schema : Text → Option DataType) (E : Engine)

/-- A constant for a column of the type: an instant that the engine reads so and that is kept, or a literal of the
column's kind with no cast around it. -/
def ConstantKept (ty : DataType) (literal : Expr) : Prop :=
  match extractTimestampAt C now literal with
  | some t => ∀ u tz, ty = .timestamp u tz → ReadsInstant E u literal t ∧ KeptInstant u t
  | none => ∃ s, aliasedLiteral literal = some s ∧ SameKind ty s

/-- A column that is converted with its constants has no cast around it, and the constants are kept. -/
def ColumnKept (column : Expr) (literals : List Expr) : Prop :=
  ∀ name t, extractColumn schema column = some (name, t) →
    (∀ literal ∈ literals, (constDatumForExpr C now t literal).isSome) →
      CastFree column ∧ ∀ literal ∈ literals, ConstantKept C now E t literal

/-- A pattern that becomes a prefix of a column has no escape in it, it and the column have no cast around them, and the
column holds strings. -/
def PatternKept (column pattern : Expr) : Prop :=
  ∀ name t s p, extractColumn schema column = some (name, t) → genericDatumForExpr C pattern = some (.string s) →
    likePrefix s = some p →
      CastFree column ∧ (∃ ty, t = .text ty) ∧ '\\' ∉ s ∧ ∃ ty, aliasedLiteral pattern = some (.text ty s)

/-- A filter other than AND, OR and NOT that means what the predicate made of it means. -/
def LeafKept : Expr → Prop
  | .binary l _ r => ColumnKept C now schema E l [r] ∧ ColumnKept C now schema E r [l]
  | .between e false low high => ColumnKept C now schema E e [low, high]
  | .isNull e | .isNotNull e => ColumnKept C now schema E e []
  | .inList e list false => ColumnKept C now schema E e list
  | .like _ e pattern none false => PatternKept C schema e pattern
  | _ => True

/-- A column is compared with a constant that can be converted for it. -/
def Converts (column : Expr) (literals : List Expr) : Prop :=
  ∃ name t, extractColumn schema column = some (name, t) ∧
    ∀ literal ∈ literals, (constDatumForExpr C now t literal).isSome

def Supported : Expr → Prop
  | .binary l .and r => Supported l ∨ Supported r
  | .binary l .or r => Supported l ∧ Supported r
  | .binary l op r => (toPredicateOp op).isSome ∧ (Converts C now schema l [r] ∨ Converts C now schema r [l])
  | .between e false low high => Converts C now schema e [low, high]
  | .not e => Supported e
  | .isNull e | .isNotNull e => Converts C now schema e []
  | .inList e list false => Converts C now schema e list
  | .like _ e pattern none false =>
    Converts C now schema e [] ∧ ∃ s p, genericDatumForExpr C pattern = some (.string s) ∧ likePrefix s = some p
  | _ => False

/-- A filter whose leaves are kept and that, where it stands under an odd number of NOTs, has no conjunction of which
only one side is supported. -/
def Pushable (positive : Bool) : Expr → Prop
  | .binary l .and r => Pushable positive l ∧ Pushable positive r ∧
    (positive = false → (Supported C now schema l ↔ Supported C now schema r))
  | .binary l .or r => Pushable positive l ∧ Pushable positive r
  | .not e => Pushable (!positive) e
  | e => LeafKept C now schema E e

def LeavesKept : Expr → Prop
  | .binary l .and r => LeavesKept l ∧ LeavesKept r
  | .binary l .or r => LeavesKept l ∧ LeavesKept r
  | .not e => LeavesKept e
  | e => LeafKept C now schema E e

end

/-! ## Constants -/

/-- The engine compares values of the type with the constant as the reader does with the datum. -/
def Agree (E : Engine) (R : Reader) (ty : DataType) (literal : Expr) (d : Datum) : Prop :=
  ∀ row v, ty.HasValue v → E.compare v (E.eval row literal) = R.compare v d ∧
    E.compare (E.eval row literal) v = (R.compare v d).map Ordering.swap

/-- The engine compares byte strings by their bytes. -/
def ComparesBytes (E : Engine) : Prop := ∀ a b, E.mixed (.binary a) (.binary b) = some (compareBytes a b)

section

variable {C : Chrono} {now : Instant} {schema : Text → Option DataType} {E : Engine} {R : Reader} {e : Expr}

variable {s : ScalarValue}

theorem eval_aliasedLiteral (h : aliasedLiteral e = some s) (row : Row) : E.eval row e = .ofScalar s := by
  fun_induction aliasedLiteral e with
  | case1 => rw [eval, Option.some.inj h]
  | case2 e n ih => rw [eval, ih h]
  | case3 => cases h

variable {ty : DataType} {t : Instant}

theorem constDatumForExpr_of_instant
    (h : extractTimestampAt C now e = some t) : constDatumForExpr C now ty e = timestampDatumForType t ty := by
  unfold constDatumForExpr
  split <;> rw [instantDatumOr, h]

theorem constDatumForExpr_aliasedLiteral (h : aliasedLiteral e = some s) (hinstant : extractTimestampAt C now e = none) :
    constDatumForExpr C now ty e = scalarValueToDatum C s (some ty) := by
  fun_induction aliasedLiteral e with
  | case1 => rw [constDatumForExpr, instantDatumOr, hinstant, Option.some.inj h]
  | case2 e n ih =>
    rw [constDatumForExpr, instantDatumOr, hinstant]
    exact ih h (by rwa [extractTimestampAt] at hinstant)
  | case3 => cases h

variable {d : Datum} {target : Option DataType}

theorem scalarValueToDatum_int {i : MachineInt}
    (h : scalarValueToDatum C (.int i) target = some d) : d = .int i.val ∨ d = .long i.val := by
  obtain ⟨ty, v, hfits⟩ := i
  cases ty
  case int8 | int16 | int32 => exact Or.inl (Option.some.inj h).symm
  all_goals
    obtain ⟨w, hw, rfl⟩ := map_eq_some_iff.mp h
    exact Or.inr (congrArg Datum.long (IntType.checked_eq_some hw).1)

theorem scalarValueToDatum_text {t : TextType} {s : Text}
    (h : scalarValueToDatum C (.text t s) target = some d) : d = .string s := by
  cases t <;> first | exact (Option.some.inj h).symm | cases h

theorem compare_literal (hbytes : ComparesBytes E) (hkind : SameKind ty s)
    (h : scalarValueToDatum C s (some ty) = some d) {v : Value} (hv : ty.HasValue v) :
    E.compare v (.ofScalar s) = R.compare v d ∧ E.compare (.ofScalar s) v = (R.compare v d).map Ordering.swap := by
  cases s with
  | boolean b =>
    obtain rfl : ty = .boolean := by cases ty <;> first | rfl | exact hkind.elim
    cases h
    cases v <;> first | exact hv.elim | simp [Engine.compare, ofScalar, Reader.compare, cmp_swap]
  | int i =>
    obtain ⟨t, rfl⟩ : ∃ t, ty = .int t := by cases ty <;> first | exact ⟨_, rfl⟩ | exact hkind.elim
    obtain rfl | rfl := scalarValueToDatum_int h <;>
      cases v <;> first | exact hv.elim | simp [Engine.compare, ofScalar, Reader.compare, cmp_swap]
  | float32 b | float64 b =>
    cases h
    cases ty <;> first | exact hkind.elim | skip
    all_goals cases v <;> first | exact hv.elim | simp [Engine.compare, ofScalar, Reader.compare, cmp_swap]
  | text t s =>
    obtain ⟨t, rfl⟩ : ∃ t, ty = .text t := by cases ty <;> first | exact ⟨_, rfl⟩ | exact hkind.elim
    obtain rfl := scalarValueToDatum_text h
    cases v <;> first | exact hv.elim | simp [Engine.compare, ofScalar, Reader.compare, cmp_swap]
  | binary b | largeBinary b =>
    cases h
    cases ty <;> first | exact hkind.elim | skip
    all_goals cases v <;> first | exact hv.elim | simp [Engine.compare, ofScalar, Reader.compare, hbytes _ _, compareBytes, cmp_swap]
  | date32 days =>
    obtain rfl : ty = .date32 := by cases ty <;> first | rfl | exact hkind.elim
    cases h
    cases v <;> first | exact hv.elim | simp [Engine.compare, ofScalar, Reader.compare, cmp_swap]
  | _ => cases ty <;> exact hkind.elim

theorem micros_eq_tdiv {u : TimeUnit} (hu : (1000 : Int) ∣ u.nanos) (h : KeptInstant u t) :
    t / 1000 * 1000 = t.tdiv u.nanos * u.nanos := by
  rcases h with hdvd | ⟨rfl, hpos⟩
  · rw [Int.tdiv_mul_cancel hdvd, Int.ediv_mul_cancel (hu.trans hdvd)]
  · rw [TimeUnit.nanos, Int.tdiv_eq_ediv_of_nonneg hpos]

theorem compare_instant {u : TimeUnit} {tz : Option Text} {literal : Expr}
    (hreads : ReadsInstant E u literal t) (hkept : KeptInstant u t)
    (h : timestampDatumForType t (.timestamp u tz) = some d) : Agree E R (.timestamp u tz) literal d := by
  intro row v hv
  obtain ⟨nanos, hnanos, h⟩ := bind_eq_some_iff.mp h
  obtain ⟨rfl, -⟩ := IntType.checked_eq_some hnanos
  -- either way the datum is the truncated instant
  have hdatum : ∀ v, R.compare (.timestamp u v) d = some (cmp v (nanos.tdiv u.nanos)) := by
    intro v
    cases u
    case nanosecond =>
      cases h
      simp [Reader.compare, TimeUnit.nanos]
    all_goals
      cases h
      rw [Reader.compare, micros_eq_tdiv (by decide) hkept, cmp_mul_pos_right (by decide)]
  cases v with
  | null => exact ⟨rfl, by rw [Engine.compare_null_right]; rfl⟩
  | timestamp u' v =>
    obtain ⟨rfl, -⟩ := hv
    rw [hdatum, (hreads row v).1, (hreads row v).2, Option.map_some, cmp_swap]
    exact ⟨rfl, rfl⟩
  | _ => exact hv.elim

theorem agree_of_constantKept (hbytes : ComparesBytes E) {literal : Expr}
    (hkept : ConstantKept C now E ty literal) (h : constDatumForExpr C now ty literal = some d) :
    Agree E R ty literal d := by
  unfold ConstantKept at hkept
  split at hkept
  · rename_i t ht
    rw [constDatumForExpr_of_instant ht] at h
    cases ty with
    | timestamp u tz =>
      obtain ⟨hreads, hinstant⟩ := hkept u tz rfl
      exact compare_instant hreads hinstant h
    | _ =>
      obtain ⟨_, -, hnone⟩ := bind_eq_some_iff.mp h
      cases hnone
  · rename_i hnone
    obtain ⟨s, hs, hkind⟩ := hkept
    rw [constDatumForExpr_aliasedLiteral hs hnone] at h
    intro row v hv
    rw [eval_aliasedLiteral hs]
    exact compare_literal hbytes hkind h hv

/-! ## Columns and constants that are kept -/

theorem readsInstant_literal {u u' : TimeUnit} (tz : Option Text) (w : I64) (hu : u'.nanos ≤ u.nanos) :
    ReadsInstant E u (.literal (.timestamp u' tz w)) (w.val * u'.nanos) := by
  intro row v
  have hcoarser : ∀ a b : TimeUnit, max a.nanos b.nanos = u.nanos → a.coarser b = u := by
    intro a b h
    exact TimeUnit.nanos_injective (by rw [TimeUnit.nanos_coarser, h])
  rw [eval, ofScalar, Engine.compare, Engine.compare, compareTimestamps, compareTimestamps,
    hcoarser u u' (max_eq_left hu), hcoarser u' u (max_eq_right hu), TimeUnit.convert_self, TimeUnit.convert_eq_tdiv hu]
  exact ⟨rfl, rfl⟩

variable {literals : List Expr} {t : DataType} {name : Text}

theorem columnKept_of_column (hschema : schema name = some t)
    (h : ∀ literal ∈ literals, ConstantKept C now E t literal) : ColumnKept C now schema E (.column name) literals := by
  intro name' t' hcol _
  rw [extractColumn, hschema, Option.map_some] at hcol
  obtain ⟨-, rfl⟩ := Prod.mk.inj (Option.some.inj hcol)
  exact ⟨trivial, h⟩

theorem columnKept_of_literal {v : ScalarValue} : ColumnKept C now schema E (.literal v) literals := by
  intro _ _ hcol
  cases hcol

theorem constantKept_of_sameKind {v : ScalarValue} (hinstant : C.literalTimestamp v = none)
    (hkind : SameKind t v) : ConstantKept C now E t (.literal v) := by
  unfold ConstantKept
  rw [extractTimestampAt, hinstant]
  exact ⟨v, rfl, hkind⟩

theorem constantKept_of_timestamp {u u' : TimeUnit} {tz tz' : Option Text} {w : I64} (hu : u'.nanos ≤ u.nanos)
    (hrange : C.ofUnits u' w.val = some (w.val * u'.nanos)) (hkept : KeptInstant u (w.val * u'.nanos)) :
    ConstantKept C now E (.timestamp u tz) (.literal (.timestamp u' tz' w)) := by
  unfold ConstantKept
  rw [extractTimestampAt, Chrono.literalTimestamp, hrange]
  intro u'' tz'' heq
  obtain ⟨rfl, -⟩ := DataType.timestamp.inj heq
  exact ⟨readsInstant_literal tz' w hu, hkept⟩

/-! ## Leaves -/

theorem eval_of_castFree (hfree : CastFree e)
    (h : extractColumn schema e = some (name, t)) : schema name = some t ∧ ∀ row, E.eval row e = row name := by
  fun_induction extractColumn schema e with
  | case1 n =>
    obtain ⟨t', ht', heq⟩ := map_eq_some_iff.mp h
    obtain ⟨rfl, rfl⟩ := Prod.mk.inj heq
    exact ⟨ht', fun row => by rw [eval]⟩
  | case2 => exact hfree.elim
  | case3 e n ih =>
    obtain ⟨hschema, heval⟩ := ih hfree h
    exact ⟨hschema, fun row => by rw [eval, heval]⟩
  | case4 => cases h

variable {col : Text × DataType}

theorem extractTimestampAt_column (h : extractColumn schema e = some col) : extractTimestampAt C now e = none := by
  fun_induction extractColumn schema e with
  | case1 => rfl
  | case2 e _ ih | case3 e _ ih =>
    rw [extractTimestampAt]
    exact ih h
  | case4 => cases h

theorem constDatumForExpr_column (h : extractColumn schema e = some col) : constDatumForExpr C now ty e = none := by
  have hinstant : extractTimestampAt C now e = none := extractTimestampAt_column h
  fun_induction extractColumn schema e with
  | case1 => rfl
  | case2 e _ ih | case3 e _ ih =>
    rw [constDatumForExpr, instantDatumOr, hinstant]
    exact ih h (extractTimestampAt_column h)
  | case4 => cases h

theorem ColumnKept.spec (hbytes : ComparesBytes E) {column : Expr}
    (h : ColumnKept C now schema E column literals) (hcol : extractColumn schema column = some (name, t))
    (hsome : ∀ literal ∈ literals, (constDatumForExpr C now t literal).isSome) :
    (∀ row, E.eval row column = row name) ∧ (∀ row, TypedRow schema row → t.HasValue (row name)) ∧
      ∀ literal ∈ literals, ∀ d, constDatumForExpr C now t literal = some d → Agree E R t literal d := by
  obtain ⟨hfree, hconst⟩ := h name t hcol hsome
  obtain ⟨hschema, heval⟩ := eval_of_castFree hfree hcol
  exact ⟨heval, fun row hrow => hrow name t hschema,
    fun literal hmem d hd => agree_of_constantKept hbytes (hconst literal hmem) hd⟩

variable {pop : PredicateOperator}

theorem toPredicateOp_spec {op : Operator} (h : toPredicateOp op = some pop) : ∃ accepts : Ordering → Bool,
      (∀ row l r, E.eval row (.binary l op r) = .ofTruth (E.compareOp accepts (E.eval row l) (E.eval row r))) ∧
      (∀ v d, R.binary pop v d = (R.compare v d).map accepts) ∧
      ∀ v d, R.binary (reversePredicateOp pop) v d = (R.compare v d).map (accepts ∘ Ordering.swap) := by
  cases op <;> cases h
  all_goals
    refine ⟨_, fun _ _ _ => rfl, fun _ _ => rfl, fun v d => ?_⟩
    cases hcompare : R.compare v d with
    | none => simp [Reader.binary, reversePredicateOp, PredicateOperator.accepts, hcompare]
    | some o => cases o <;> simp [Reader.binary, reversePredicateOp, PredicateOperator.accepts, hcompare]

variable {row : Row}

theorem eval_convertComparison (hbytes : ComparesBytes E) {l r : Expr} {op : Operator}
    {p : Predicate} (hop : toPredicateOp op = some pop) (hkept : LeafKept C now schema E (.binary l op r))
    (h : convertComparison C now schema l r pop = some p) (hrow : TypedRow schema row) :
    p.eval R row = (E.eval row (.binary l op r)).truth := by
  obtain ⟨accepts, heval, hforward, hbackward⟩ := toPredicateOp_spec hop
  rw [heval, truth_ofTruth]
  unfold convertComparison at h
  split at h
  · rename_i name t hcol
    obtain ⟨d, hd, rfl⟩ := map_eq_some_iff.mp h
    obtain ⟨hcolumn, htyped, hagree⟩ := hkept.1.spec hbytes hcol (by simp [hd])
    rw [Predicate.eval, hforward, Engine.compareOp, hcolumn, (hagree r (by simp) d hd row _ (htyped row hrow)).1]
  · split at h
    · rename_i name t hcol
      obtain ⟨d, hd, rfl⟩ := map_eq_some_iff.mp h
      obtain ⟨hcolumn, htyped, hagree⟩ := hkept.2.spec hbytes hcol (by simp [hd])
      rw [Predicate.eval, hbackward, Engine.compareOp, hcolumn, (hagree l (by simp) d hd row _ (htyped row hrow)).2,
        Option.map_map]
    · cases h

theorem eval_convert_between (hbytes : ComparesBytes E) {e low high : Expr} {p : Predicate}
    (hkept : LeafKept C now schema E (.between e false low high))
    (h : convertFilter C now schema (.between e false low high) = some p) (hrow : TypedRow schema row) :
    p.eval R row = (E.eval row (.between e false low high)).truth := by
  rw [convertFilter] at h
  obtain ⟨⟨name, t⟩, hcol, h⟩ := bind_eq_some_iff.mp h
  obtain ⟨lo, hlo, h⟩ := bind_eq_some_iff.mp h
  obtain ⟨hi, hhi, rfl⟩ := map_eq_some_iff.mp h
  obtain ⟨hcolumn, htyped, hagree⟩ := ColumnKept.spec hbytes hkept hcol (by simp [hlo, hhi])
  have hlow := (hagree low (by simp) lo hlo row _ (htyped row hrow)).1
  have hhigh := (hagree high (by simp) hi hhi row _ (htyped row hrow)).1
  rw [eval, truth_ofTruth, negateIf, if_neg Bool.false_ne_true, Engine.between, Engine.compareOp,
    Engine.compareOp, hcolumn, hlow, hhigh]
  rfl

theorem eval_convert_isNull (hkept : ColumnKept C now schema E e []) (hcol : extractColumn schema e = some (name, t)) (row : Row) :
    (Predicate.isNull name).eval R row = (E.eval row (.isNull e)).truth ∧
      (Predicate.notNull name).eval R row = (E.eval row (.isNotNull e)).truth := by
  obtain ⟨hfree, -⟩ := hkept name t hcol (fun _ h => nomatch h)
  rw [eval, eval, (eval_of_castFree hfree hcol).2 row]
  exact ⟨rfl, rfl⟩

variable {f : Expr → Option Datum}

theorem map_eq_of_mapM : ∀ {list : List Expr} {ds : List Datum}, list.mapM f = some ds → list.map f = ds.map some
  | [], ds, h => by
    obtain rfl : [] = ds := Option.some.inj h
    rfl
  | e :: list, ds, h => by
    rw [mapM_cons] at h
    obtain ⟨d, hd, h⟩ := bind_eq_some_iff.mp h
    obtain ⟨ds', hds', h⟩ := bind_eq_some_iff.mp h
    cases h
    rw [map_cons, map_cons, hd, map_eq_of_mapM hds']

theorem eval_convert_inList (hbytes : ComparesBytes E) {list : List Expr} {p : Predicate}
    (hkept : LeafKept C now schema E (.inList e list false))
    (h : convertFilter C now schema (.inList e list false) = some p) (hrow : TypedRow schema row) :
    p.eval R row = (E.eval row (.inList e list false)).truth := by
  rw [convertFilter] at h
  obtain ⟨⟨name, t⟩, hcol, h⟩ := bind_eq_some_iff.mp h
  obtain ⟨ds, hds, rfl⟩ := map_eq_some_iff.mp h
  have hmap := map_eq_of_mapM hds
  have hdatum : ∀ item ∈ list, ∃ d, constDatumForExpr C now t item = some d := by
    intro item hitem
    have hmem : constDatumForExpr C now t item ∈ ds.map some := hmap ▸ mem_map_of_mem hitem
    obtain ⟨d, -, hd⟩ := mem_map.mp hmem
    exact ⟨d, hd.symm⟩
  obtain ⟨hcolumn, htyped, hagree⟩ :=
    ColumnKept.spec hbytes hkept hcol fun item hitem => isSome_iff_exists.mpr (hdatum item hitem)
  have hvalues : ds.map (fun d => (R.compare (row name) d).map isEq) =
      (list.map (E.eval row)).map (E.compareOp isEq (row name)) := calc
    ds.map (fun d => (R.compare (row name) d).map isEq)
      = (ds.map some).map (·.bind fun d => (R.compare (row name) d).map isEq) := by
        rw [map_map]
        rfl
    _ = (list.map (constDatumForExpr C now t)).map (·.bind fun d => (R.compare (row name) d).map isEq) := by
        rw [hmap]
    _ = (list.map (E.eval row)).map (E.compareOp isEq (row name)) := by
        rw [map_map, map_map]
        refine map_congr_left fun item hitem => ?_
        obtain ⟨d, hd⟩ := hdatum item hitem
        rw [Function.comp, Function.comp, hd, Option.bind_some, Engine.compareOp,
          (hagree item hitem d hd row _ (htyped row hrow)).1]
  rw [Predicate.eval, hvalues, eval, truth_ofTruth, negateIf, if_neg Bool.false_ne_true, Engine.inList,
    hcolumn, Engine.evalList_eq_map]

theorem likeMatch_likePrefix {s p : Text} (h : likePrefix s = some p) (hesc : '\\' ∉ s) (t : Text) :
    likeMatch (parseLike '\\' s) t = p.isPrefixOf t := by
  unfold likePrefix at h
  split at h
  · rename_i hcond
    simp only [and_eq_true, decide_eq_true_eq, not_eq_true', or_eq_false_iff, contains_eq_mem,
      decide_eq_false_iff_not] at hcond
    obtain ⟨hlast, hpct, hund⟩ := hcond
    cases h
    have hs : s = s.dropLast ++ ['%'] := (dropLast_append_getLast? _ hlast).symm
    have hesc' : '\\' ∉ s.dropLast := fun hmem => hesc (mem_of_mem_dropLast hmem)
    rw [Bool.eq_iff_iff, isPrefixOf_iff_prefix, ← likeMatch_map_lit_any,
      ← parseLike_concat_percent_of_no_escape _ hesc' hpct hund, ← hs]
  · cases h

theorem eval_convert_like {negated : Bool} {e pattern : Expr} {p : Predicate}
    (hkept : LeafKept C now schema E (.like negated e pattern none false))
    (h : convertFilter C now schema (.like negated e pattern none false) = some p)
    (hrow : TypedRow schema row) : p.eval R row = (E.eval row (.like negated e pattern none false)).truth := by
  rw [convertFilter] at h
  obtain ⟨⟨name, t⟩, hcol, h⟩ := bind_eq_some_iff.mp h
  obtain ⟨datum, hdatum, h⟩ := bind_eq_some_iff.mp h
  split at h
  · rename_i s
    obtain ⟨pre, hpre, rfl⟩ := map_eq_some_iff.mp h
    obtain ⟨hfree, ⟨ty, rfl⟩, hesc, ty', hpattern⟩ := hkept name t s pre hcol hdatum hpre
    obtain ⟨hschema, heval⟩ := eval_of_castFree hfree hcol
    have hlike : R.startsWith (row name) (.string pre) = E.like none false (row name) (.text s) := by
      have htyped := hrow name _ hschema
      cases hv : row name with
      | null => rfl
      | text v => exact congrArg some (likeMatch_likePrefix hpre hesc v).symm
      | _ =>
        rw [hv] at htyped
        exact htyped.elim
    rw [eval, truth_ofTruth, heval, eval_aliasedLiteral hpattern, ofScalar, ← hlike]
    cases negated <;> rfl
  · cases h

theorem eval_convert_leaf (hbytes : ComparesBytes E) {p : Predicate}
    (hand : ∀ l r, e = .binary l .and r → False) (hor : ∀ l r, e = .binary l .or r → False)
    (hnot : ∀ inner, e = .not inner → False) (hkept : LeafKept C now schema E e) (h : convertFilter C now schema e = some p)
    (hrow : TypedRow schema row) : p.eval R row = (E.eval row e).truth := by
  cases e with
  | binary l op r =>
    have hconvert : (toPredicateOp op).bind (convertComparison C now schema l r) = some p := by
      cases op
      case and => exact (hand l r rfl).elim
      case or => exact (hor l r rfl).elim
      all_goals exact h
    obtain ⟨pop, hop, h⟩ := bind_eq_some_iff.mp hconvert
    exact eval_convertComparison hbytes hop hkept h hrow
  | not inner => exact (hnot inner rfl).elim
  | between e negated low high =>
    cases negated
    · exact eval_convert_between hbytes hkept h hrow
    · cases h
  | isNull e =>
    obtain ⟨⟨name, t⟩, hcol, rfl⟩ := map_eq_some_iff.mp h
    exact (eval_convert_isNull hkept hcol row).1
  | isNotNull e =>
    obtain ⟨⟨name, t⟩, hcol, rfl⟩ := map_eq_some_iff.mp h
    exact (eval_convert_isNull hkept hcol row).2
  | inList e list negated =>
    cases negated
    · exact eval_convert_inList hbytes hkept h hrow
    · cases h
  | like negated e pattern escape insensitive =>
    cases escape <;> cases insensitive
    · exact eval_convert_like hkept h hrow
    all_goals cases h
  | _ => cases h

/-! ## Whole filters -/

variable {l r : Option Predicate}

theorem isSome_combineAnd : (combineAnd l r).isSome ↔ l.isSome ∨ r.isSome := by
  cases l <;> cases r <;> simp [combineAnd]

theorem isSome_combineOr : (combineOr l r).isSome ↔ l.isSome ∧ r.isSome := by
  cases l <;> cases r <;> simp [combineOr]

theorem converts_iff {column : Expr} :
    Converts C now schema column literals ↔ ∃ col, extractColumn schema column = some col ∧
      ∀ literal ∈ literals, (constDatumForExpr C now col.2 literal).isSome := by
  unfold Converts
  exact ⟨fun ⟨name, t, h⟩ => ⟨(name, t), h⟩, fun ⟨col, h⟩ => ⟨col.1, col.2, h⟩⟩

theorem isSome_bind_extractColumn {f : Text × DataType → Option Predicate}
    (h : ∀ col, (f col).isSome ↔ ∀ literal ∈ literals, (constDatumForExpr C now col.2 literal).isSome) :
    ((extractColumn schema e).bind f).isSome ↔ Converts C now schema e literals := by
  rw [converts_iff]
  cases hcol : extractColumn schema e with
  | none => simp
  | some col => simpa using h col

theorem isSome_convertComparison {l r : Expr} :
    (convertComparison C now schema l r pop).isSome ↔ Converts C now schema l [r] ∨ Converts C now schema r [l] := by
  rw [converts_iff, converts_iff]
  unfold convertComparison
  cases hl : extractColumn schema l with
  | some col =>
    have hconst : ∀ ty, constDatumForExpr C now ty l = none := fun ty => constDatumForExpr_column hl
    simp [hconst]
  | none =>
    cases hr : extractColumn schema r with
    | some col | none => simp

theorem isSome_mapM (list : List Expr) : (list.mapM f).isSome ↔ ∀ e ∈ list, (f e).isSome := by
  induction list with
  | nil => simp
  | cons e list ih =>
    rw [mapM_cons, forall_mem_cons, ← ih]
    cases f e <;> cases list.mapM f <;> simp

theorem isSome_convertFilter_iff (e : Expr) : (convertFilter C now schema e).isSome ↔ Supported C now schema e := by
  fun_induction convertFilter C now schema e with
  | case1 l r ihl ihr => rw [isSome_combineAnd, ihl, ihr, Supported]
  | case2 l r ihl ihr => rw [isSome_combineOr, ihl, ihr, Supported]
  | case3 l op r hand hor =>
    have hsupported : Supported C now schema (.binary l op r) ↔
        (toPredicateOp op).isSome ∧ (Converts C now schema l [r] ∨ Converts C now schema r [l]) := by
      cases op
      case and => exact (hand rfl).elim
      case or => exact (hor rfl).elim
      all_goals exact Iff.rfl
    rw [hsupported]
    cases toPredicateOp op with
    | none => simp
    | some pop => simpa using isSome_convertComparison
  | case4 e low high =>
    refine isSome_bind_extractColumn fun col => ?_
    cases hlow : constDatumForExpr C now col.2 low <;> simp [hlow]
  | case5 e ih => rw [Option.isSome_map, ih, Supported]
  | case6 e | case7 e =>
    rw [Option.map_eq_bind]
    exact isSome_bind_extractColumn fun col => by simp
  | case8 e list =>
    refine isSome_bind_extractColumn fun col => ?_
    rw [Option.isSome_map, isSome_mapM]
  | case9 negated e pattern =>
    rw [Supported, converts_iff]
    cases hcol : extractColumn schema e with
    | none => simp
    | some col => cases hdatum : genericDatumForExpr C pattern with
      | none => simp
      | some datum => cases datum <;> simp [isSome_iff_exists]
  | case10 e _ _ hbinary hbetween hnot hnull hnotNull hlist hlike =>
    refine ⟨fun h => (nomatch h), fun h => ?_⟩
    cases e with
    | binary l op r => exact (hbinary l op r rfl).elim
    | not e => exact (hnot e rfl).elim
    | isNull e => exact (hnull e rfl).elim
    | isNotNull e => exact (hnotNull e rfl).elim
    | between e negated low high =>
      cases negated
      · exact (hbetween e low high rfl).elim
      · exact h.elim
    | inList e list negated =>
      cases negated
      · exact (hlist e list rfl).elim
      · exact h.elim
    | like negated e pattern escape insensitive =>
      cases escape <;> cases insensitive
      · exact (hlike negated e pattern rfl).elim
      all_goals exact h.elim
    | _ => exact h.elim

variable (row : Row)

theorem truth_and (l r : Expr) :
    (E.eval row (.binary l .and r)).truth = Kleene.and (E.eval row l).truth (E.eval row r).truth := by
  rw [eval, Engine.binary, truth_ofTruth]

theorem truth_or (l r : Expr) :
    (E.eval row (.binary l .or r)).truth = Kleene.or (E.eval row l).truth (E.eval row r).truth := by
  rw [eval, Engine.binary, truth_ofTruth]

theorem truth_not (e : Expr) : (E.eval row (.not e)).truth = Kleene.not (E.eval row e).truth := by
  rw [eval, truth_ofTruth]

variable {row}

theorem combineOr_eq_some {p : Predicate} (h : combineOr l r = some p) :
    ∃ pl pr, l = some pl ∧ r = some pr ∧ p = .or pl pr := by
  cases l <;> cases r <;> cases h
  exact ⟨_, _, rfl, rfl, rfl⟩

theorem combineAnd_eq_some {p : Predicate} (h : combineAnd l r = some p) :
    (∃ pl pr, l = some pl ∧ r = some pr ∧ p = .and pl pr) ∨ (l = some p ∧ r = none) ∨ (l = none ∧ r = some p) := by
  cases l <;> cases r <;> simp_all [combineAnd]

theorem eval_convert_of_pushable (hbytes : ComparesBytes E) {p : Predicate} {positive : Bool}
    (hpush : Pushable C now schema E positive e) (h : convertFilter C now schema e = some p)
    (hrow : TypedRow schema row) (htruth : (E.eval row e).truth = some positive) : p.eval R row = some positive := by
  fun_induction Pushable C now schema E positive e generalizing p with
  | case1 positive l r ihl ihr =>
    obtain ⟨hl, hr, hboth⟩ := hpush
    rw [truth_and] at htruth
    cases positive
    · -- under a NOT both sides are converted, or neither
      have hsome : (convertFilter C now schema l).isSome ↔ (convertFilter C now schema r).isSome := by
        rw [isSome_convertFilter_iff, isSome_convertFilter_iff]
        exact hboth rfl
      rcases combineAnd_eq_some h with ⟨pl, pr, hpl, hpr, rfl⟩ | ⟨hpl, hpr⟩ | ⟨hpl, hpr⟩
      · rw [Predicate.eval]
        exact Kleene.and_eq_false.mpr ((Kleene.and_eq_false.mp htruth).imp (ihl hl hpl) (ihr hr hpr))
      · simp [hpl, hpr] at hsome
      · simp [hpl, hpr] at hsome
    · obtain ⟨htl, htr⟩ := Kleene.and_eq_true.mp htruth
      rcases combineAnd_eq_some h with ⟨pl, pr, hpl, hpr, rfl⟩ | ⟨hpl, -⟩ | ⟨-, hpr⟩
      · rw [Predicate.eval]
        exact Kleene.and_eq_true.mpr ⟨ihl hl hpl htl, ihr hr hpr htr⟩
      · exact ihl hl hpl htl
      · exact ihr hr hpr htr
  | case2 positive l r ihl ihr =>
    obtain ⟨pl, pr, hpl, hpr, rfl⟩ := combineOr_eq_some h
    rw [truth_or] at htruth
    rw [Predicate.eval]
    cases positive
    · obtain ⟨hfl, hfr⟩ := Kleene.or_eq_false.mp htruth
      exact Kleene.or_eq_false.mpr ⟨ihl hpush.1 hpl hfl, ihr hpush.2 hpr hfr⟩
    · exact Kleene.or_eq_true.mpr ((Kleene.or_eq_true.mp htruth).imp (ihl hpush.1 hpl) (ihr hpush.2 hpr))
  | case3 positive e ih =>
    obtain ⟨q, hq, rfl⟩ := map_eq_some_iff.mp h
    rw [truth_not] at htruth
    rw [Predicate.eval]
    cases positive
    · exact Kleene.not_eq_false.mpr (ih hpush hq (Kleene.not_eq_false.mp htruth))
    · exact Kleene.not_eq_true.mpr (ih hpush hq (Kleene.not_eq_true.mp htruth))
  | case4 positive e hand hor hnot =>
    rw [eval_convert_leaf hbytes hand hor hnot hpush h hrow]
    exact htruth

theorem extractColumn_of_exactScalarColumn (h : exactScalarColumn schema e = some t) :
    ∃ name, extractColumn schema e = some (name, t) := by
  obtain ⟨⟨name, ty⟩, hcol, h⟩ := bind_eq_some_iff.mp h
  split at h
  · exact ⟨name, by rw [hcol, ← Option.some.inj h]⟩
  · cases h

theorem converts_of_any
    (h : (exactScalarColumn schema e).any (fun t => literals.all fun item => (constDatumForExpr C now t item).isSome)) :
    Converts C now schema e literals := by
  cases ht : exactScalarColumn schema e with
  | none =>
    rw [ht] at h
    cases h
  | some t =>
    rw [ht, Option.any_some] at h
    obtain ⟨name, hcol⟩ := extractColumn_of_exactScalarColumn ht
    exact ⟨name, t, hcol, all_eq_true.mp h⟩

theorem supported_of_eligible (h : exactPushdownEligible C now schema e = true) : Supported C now schema e := by
  fun_induction exactPushdownEligible C now schema e with
  | case1 l r ihl _ => exact Or.inl (ihl (and_eq_true_iff.mp h).1)
  | case2 l r ihl ihr => exact ⟨ihl (and_eq_true_iff.mp h).1, ihr (and_eq_true_iff.mp h).2⟩
  | case3 l op r hand hor =>
    obtain ⟨hop, hcomparison⟩ := and_eq_true_iff.mp h
    have hconverts : Converts C now schema l [r] ∨ Converts C now schema r [l] :=
      (or_eq_true_iff.mp hcomparison).imp (fun h => converts_of_any (by simpa using h))
        fun h => converts_of_any (by simpa using h)
    cases op
    case and => exact (hand rfl).elim
    case or => exact (hor rfl).elim
    all_goals exact ⟨hop, hconverts⟩
  | case4 e ih => exact ih h
  | case5 e | case6 e =>
    obtain ⟨t, ht⟩ := isSome_iff_exists.mp h
    exact converts_of_any (by simp [ht])
  | case7 e list => exact converts_of_any h
  | case8 => cases h

theorem eval_convert_of_leavesKept (hbytes : ComparesBytes E) {p : Predicate}
    (hkept : LeavesKept C now schema E e) (heligible : exactPushdownEligible C now schema e = true)
    (h : convertFilter C now schema e = some p) (hrow : TypedRow schema row) : p.eval R row = (E.eval row e).truth := by
  fun_induction LeavesKept C now schema E e generalizing p with
  | case1 l r ihl ihr =>
    obtain ⟨hl, hr⟩ := and_eq_true_iff.mp heligible
    obtain ⟨pl, hpl⟩ := isSome_iff_exists.mp ((isSome_convertFilter_iff l).mpr (supported_of_eligible hl))
    obtain ⟨pr, hpr⟩ := isSome_iff_exists.mp ((isSome_convertFilter_iff r).mpr (supported_of_eligible hr))
    rw [convertFilter, hpl, hpr] at h
    cases h
    rw [truth_and, Predicate.eval, ihl hkept.1 hl hpl, ihr hkept.2 hr hpr]
  | case2 l r ihl ihr =>
    obtain ⟨hl, hr⟩ := and_eq_true_iff.mp heligible
    obtain ⟨pl, pr, hpl, hpr, rfl⟩ := combineOr_eq_some h
    rw [truth_or, Predicate.eval, ihl hkept.1 hl hpl, ihr hkept.2 hr hpr]
  | case3 e ih =>
    obtain ⟨q, hq, rfl⟩ := map_eq_some_iff.mp h
    rw [truth_not, Predicate.eval, ih hkept heligible hq]
  | case4 e hand hor hnot => exact eval_convert_leaf hbytes hand hor hnot hkept h hrow

end

end Pushdown

end LogLake
