import LogLake.DimCount
import LogLake.Lib.AssocList

/-! # What a dimensional predicate says about a column's value -/

namespace LogLake

open List Comparison
open Option (bind_eq_some_iff map_eq_some_iff)
open Engine (eval)
open Operator (holds)
open Ordering (isEq isNe)
open IntType (int64 checked_eq_some)

/-! ## Assumptions on the engine and on the rows -/

/-- What is assumed of the engine: a cast to a string type renders a value under its key and keeps NULL, and unary minus
negates an integer. -/
structure Engine.RendersText (E : Engine) : Prop where
  cast_key : ∀ t v key, renderKey v = some key → E.cast (.text t) v = .text key
  cast_null : ∀ t, E.cast (.text t) .null = .null
  negate_int : ∀ v, E.negate (.int v) = .int (-v)

/-- A value of a column type, for the types that are counted under keys. -/
def DataType.Holds : DataType → Value → Prop
  | _, .null => True
  | .text _, .text _ => True
  | .boolean, .bool _ => True
  | .int t, .int v => t.Fits v
  | _, _ => False

instance Engine.decidableIsTrue (E : Engine) (row : Row) (e : Expr) : Decidable (E.IsTrue row e) :=
  inferInstanceAs (Decidable (_ = _))

/-! ## Columns and literals -/

/-- The expression reads its column through a cast to a string type. -/
def castsToText : Expr → Bool
  | .alias e _ => castsToText e
  | .cast _ (.text _) => true
  | _ => false

/-- A column's value as an operand that may cast it to a string. -/
def readAs (cast : Bool) (v : Value) : Value :=
  if cast then match renderKey v with
    | some key => .text key
    | none => .null
  else v

theorem DataType.Holds.null_of_renderKey {t : DataType} {v : Value} (h : t.Holds v) (hkey : renderKey v = none) : v = .null := by
  cases v with
  | null => rfl
  | bool b | int i | text s => cases hkey
  | _ => cases t <;> exact h.elim

variable {E : Engine} {row : Row} {e : Expr}

/-- A column under aliases and casts has the value of the column. -/
theorem eval_of_unwrapAliasToColumn (hE : E.RendersText) {col : Text} {t : DataType}
    (hcol : unwrapAliasToColumn e = some col) (hrow : t.Holds (row col)) :
    E.eval row e = readAs (castsToText e) (row col) := by
  fun_induction unwrapAliasToColumn e with
  | case1 name =>
    rw [Option.some.injEq] at hcol
    subst hcol
    rw [eval]
    rfl
  | case2 e name ih =>
    rw [eval]
    exact ih hcol
  | case3 e tt ih =>
    rw [eval, ih hcol]
    unfold readAs
    rw [show castsToText (.cast e (.text tt)) = true from rfl, if_pos rfl]
    cases hkey : renderKey (row col) with
    | some key =>
      split
      · exact hE.cast_key _ _ _ rfl
      · exact hE.cast_key _ _ _ hkey
    | none =>
      rw [hrow.null_of_renderKey hkey]
      split <;> exact hE.cast_null tt
  | case4 => cases hcol

theorem eval_of_stringLiteral {s : Text} (h : stringLiteral e = some s) : E.eval row e = .text s := by
  fun_induction stringLiteral e with
  | case1 e name ih =>
    rw [eval]
    exact ih h
  | case2 t s' =>
    rw [Option.some.injEq] at h
    rw [eval, h]
    rfl
  | case3 => cases h

theorem eval_of_boolLiteral {b : Bool} (h : boolLiteral e = some b) : E.eval row e = .bool b := by
  fun_induction boolLiteral e with
  | case1 e name ih =>
    rw [eval]
    exact ih h
  | case2 b' =>
    rw [Option.some.injEq] at h
    rw [eval, h]
    rfl
  | case3 => cases h

theorem intLiteral_fits {v : Int} (h : intLiteral e = some v) : int64.Fits v := by
  fun_induction intLiteral e generalizing v with
  | case1 e _ ih => exact ih h
  | case2 e _ =>
    obtain ⟨w, _, hcheck⟩ := bind_eq_some_iff.mp h
    obtain ⟨rfl, hfits⟩ := checked_eq_some hcheck
    exact hfits
  | case8 i _ =>
    obtain ⟨rfl, hfits⟩ := checked_eq_some h
    exact hfits
  | case9 | case10 => cases h
  | _ i hty =>
    rw [Option.some.injEq] at h
    subst h
    have hfits := i.fits
    rw [hty] at hfits
    simp only [IntType.Fits, IntType.min, IntType.max] at hfits ⊢
    omega

theorem eval_of_intLiteral (hE : E.RendersText) {v : Int} (h : intLiteral e = some v) : E.eval row e = .int v := by
  fun_induction intLiteral e generalizing v with
  | case1 e name ih =>
    rw [eval]
    exact ih h
  | case2 e ih =>
    obtain ⟨w, hw, hcheck⟩ := bind_eq_some_iff.mp h
    obtain ⟨rfl, -⟩ := checked_eq_some hcheck
    rw [eval, ih hw]
    exact hE.negate_int w
  | case8 i _ =>
    obtain ⟨rfl, -⟩ := checked_eq_some h
    rw [eval]
    rfl
  | case9 | case10 => cases h
  | _ i _ =>
    rw [Option.some.injEq] at h
    subst h
    rw [eval]
    rfl

theorem footerKeyLiteral_eq_none_of_column {col : Text} (h : unwrapAliasToColumn e = some col) :
    stringLiteral e = none ∧ intLiteral e = none ∧ boolLiteral e = none := by
  fun_induction unwrapAliasToColumn e with
  | case1 name => exact ⟨rfl, rfl, rfl⟩
  | case2 e _ ih => exact ih h
  | case3 e tt _ => exact ⟨rfl, rfl, rfl⟩
  | case4 => cases h

/-! ## Comparisons with an integer -/

/-- A comparison of the column with an integer literal, the column on the left. -/
structure RangeTerm where
  cast : Bool
  op : Operator
  value : Int
  deriving DecidableEq

abbrev isOrderComparison (op : Operator) : Prop := op = .gt ∨ op = .gtEq ∨ op = .lt ∨ op = .ltEq

variable (τ : RangeTerm)

def RangeTerm.Accepts (o : Ordering) : Prop := ∃ accepts, τ.op.holds = some accepts ∧ accepts o = true

def RangeTerm.HoldsInt (v : Int) : Prop := τ.Accepts (cmp v τ.value)

def RangeTerm.HoldsText (s : Text) : Prop := τ.Accepts (cmp s (renderInt τ.value))

def RangeTerm.Holds (v : Int) : Prop := if τ.cast then τ.HoldsText (renderInt v) else τ.HoldsInt v

def RangeTerm.boundsAbove : Bool := τ.op = .lt ∨ τ.op = .ltEq

section

variable {τ : RangeTerm} (horder : isOrderComparison τ.op) {α : Type*} [LinearOrder α] [DecidableLT α] {a b : α}
include horder

theorem RangeTerm.le_of_accepts (hbelow : τ.boundsAbove = false) (h : τ.Accepts (cmp a b)) : b ≤ a := by
  obtain ⟨accepts, hacc, h⟩ := h
  rcases horder with hop | hop | hop | hop <;> rw [hop] at hacc <;> cases hacc
  · exact (isGT_cmp.mp h).le
  · exact isGE_cmp.mp h
  · simp [RangeTerm.boundsAbove, hop] at hbelow
  · simp [RangeTerm.boundsAbove, hop] at hbelow

theorem RangeTerm.le_of_accepts_above (habove : τ.boundsAbove = true) (h : τ.Accepts (cmp a b)) : a ≤ b := by
  obtain ⟨accepts, hacc, h⟩ := h
  rcases horder with hop | hop | hop | hop <;> rw [hop] at hacc <;> cases hacc
  · simp [RangeTerm.boundsAbove, hop] at habove
  · simp [RangeTerm.boundsAbove, hop] at habove
  · exact (isLT_cmp.mp h).le
  · exact isLE_cmp.mp h

theorem RangeTerm.accepts_of_gt (hbelow : τ.boundsAbove = false) (h : b < a) : τ.Accepts (cmp a b) := by
  rcases horder with hop | hop | hop | hop
  · exact ⟨_, by rw [hop]; rfl, isGT_cmp.mpr h⟩
  · exact ⟨_, by rw [hop]; rfl, isGE_cmp.mpr h.le⟩
  · simp [RangeTerm.boundsAbove, hop] at hbelow
  · simp [RangeTerm.boundsAbove, hop] at hbelow

theorem RangeTerm.accepts_of_lt (habove : τ.boundsAbove = true) (h : a < b) : τ.Accepts (cmp a b) := by
  rcases horder with hop | hop | hop | hop
  · simp [RangeTerm.boundsAbove, hop] at habove
  · simp [RangeTerm.boundsAbove, hop] at habove
  · exact ⟨_, by rw [hop]; rfl, isLT_cmp.mpr h⟩
  · exact ⟨_, by rw [hop]; rfl, isLE_cmp.mpr h.le⟩

end

/-- The comparison on a value of the column; a boolean is compared with an integer only as a string. -/
def RangeTerm.HoldsValue (τ : RangeTerm) : Value → Prop
  | .int v => τ.Holds v
  | .text s => τ.HoldsText s
  | .bool b => τ.HoldsText (renderBool b)
  | _ => False

/-- The column and the comparison of a binary expression. -/
def rangeTerm (left : Expr) (op : Operator) (right : Expr) : Option (Text × RangeTerm) :=
  match unwrapAliasToColumn left, intLiteral right with
  | some col, some value => some (col, ⟨castsToText left, op, value⟩)
  | _, _ => match intLiteral left, unwrapAliasToColumn right with
    | some value, some col => some (col, ⟨castsToText right, flipComparison op, value⟩)
    | _, _ => none

theorem intRangeTerm_eq (left : Expr) (op : Operator) (right : Expr) : intRangeTerm left op right =
    (rangeTerm left op right).bind fun p => (comparisonBounds p.2.op p.2.value).map fun b => (p.1, b) := by
  unfold intRangeTerm rangeTerm
  cases unwrapAliasToColumn left <;> cases intLiteral right <;> cases intLiteral left <;>
    cases unwrapAliasToColumn right <;> rfl

variable {op : Operator}

theorem accepts_flipComparison (hop : isOrderComparison op) (o : Ordering) :
    (∃ accepts, (flipComparison op).holds = some accepts ∧ accepts o.swap = true) ↔
      ∃ accepts, op.holds = some accepts ∧ accepts o = true := by
  rcases hop with rfl | rfl | rfl | rfl <;> cases o <;> simp [flipComparison, holds]

variable {lo hi : Option Int}

theorem withinBounds_comparisonBounds {value : Int} (cast : Bool) (h : comparisonBounds op value = some (lo, hi)) (v : Int) :
    withinBounds lo hi v = true ↔ (RangeTerm.mk cast op value).HoldsInt v := by
  unfold RangeTerm.HoldsInt RangeTerm.Accepts
  unfold comparisonBounds at h
  split at h
  case h_5 => cases h
  case h_1 | h_3 =>
    cases h
    simp [withinBounds, holds]
  case h_2 | h_4 =>
    obtain ⟨w, hw, heq⟩ := map_eq_some_iff.mp h
    cases heq
    obtain ⟨rfl, -⟩ := checked_eq_some hw
    simp [withinBounds, holds]

theorem withinBounds_merge (lo hi lo' hi' : Option Int) (v : Int) :
    withinBounds (mergeLo lo lo') (mergeHi hi hi') v = true ↔
      withinBounds lo hi v = true ∧ withinBounds lo' hi' v = true := by
  cases lo <;> cases lo' <;> cases hi <;> cases hi' <;> simp [withinBounds, mergeLo, mergeHi] <;> tauto

theorem truth_binary_eq_true (hop : isOrderComparison op) {a b : Value} : (E.binary op a b).truth = some true ↔
      ∃ o, E.compare a b = some o ∧ ∃ accepts, op.holds = some accepts ∧ accepts o = true := by
  rcases hop with rfl | rfl | rfl | rfl <;> simp [Engine.binary, holds, Engine.compareOp]

variable {t : DataType} {v : Value} {cast : Bool}

theorem compare_readAs_int (hv : t.Holds v) (hcast : t = .boolean → cast = true) (op : Operator) (value : Int) :
    (∃ o, E.compare (readAs cast v) (.int value) = some o ∧ (RangeTerm.mk cast op value).Accepts o) ↔
      (RangeTerm.mk cast op value).HoldsValue v := by
  cases v with
  | null => cases cast <;> simp [readAs, renderKey, Engine.compare, RangeTerm.HoldsValue]
  | int i => cases cast <;> simp [readAs, renderKey, Engine.compare, RangeTerm.HoldsValue, RangeTerm.Holds,
      RangeTerm.HoldsText, RangeTerm.HoldsInt]
  | text s => cases cast <;> simp [readAs, renderKey, Engine.compare, RangeTerm.HoldsValue, RangeTerm.HoldsText]
  | bool b =>
    have ht : t = .boolean := by cases t <;> first | rfl | exact hv.elim
    rw [hcast ht]
    simp [readAs, renderKey, Engine.compare, RangeTerm.HoldsValue, RangeTerm.HoldsText]
  | _ => cases t <;> exact hv.elim

theorem compare_int_readAs (hv : t.Holds v) (hcast : t = .boolean → cast = true) (value : Int) :
    E.compare (.int value) (readAs cast v) = (E.compare (readAs cast v) (.int value)).map Ordering.swap := by
  cases v with
  | null => cases cast <;> simp [readAs, renderKey, Engine.compare]
  | int i | text s => cases cast <;> simp [readAs, renderKey, Engine.compare, cmp_swap]
  | bool b =>
    have ht : t = .boolean := by cases t <;> first | rfl | exact hv.elim
    rw [hcast ht]
    simp [readAs, renderKey, Engine.compare, cmp_swap]
  | _ => cases t <;> exact hv.elim

variable {left right : Expr} {col : Text} {τ : RangeTerm}

/-- A comparison is TRUE exactly when the value lies within its bound. -/
theorem isTrue_of_rangeTerm (hE : E.RendersText) (hop : isOrderComparison op) (hτ : rangeTerm left op right = some (col, τ))
    (hrow : t.Holds (row col)) (hcast : t = .boolean → τ.cast = true) :
    E.IsTrue row (.binary left op right) ↔ τ.HoldsValue (row col) := by
  unfold Engine.IsTrue
  rw [eval, truth_binary_eq_true hop]
  unfold rangeTerm at hτ
  split at hτ
  · next c value hc hv =>
    cases hτ
    rw [eval_of_unwrapAliasToColumn hE hc hrow, eval_of_intLiteral hE hv]
    exact compare_readAs_int hrow hcast op value
  · split at hτ
    · next value c hv hc =>
      cases hτ
      rw [eval_of_unwrapAliasToColumn hE hc hrow, eval_of_intLiteral hE hv, compare_int_readAs hrow hcast,
        ← compare_readAs_int (E := E) hrow hcast]
      constructor
      · rintro ⟨o, ho, hacc⟩
        obtain ⟨o', ho', rfl⟩ := map_eq_some_iff.mp ho
        refine ⟨o', ho', ?_⟩
        rw [← accepts_flipComparison hop, Ordering.swap_swap] at hacc
        exact hacc
      · rintro ⟨o, ho, hacc⟩
        refine ⟨o.swap, by rw [ho, Option.map_some], ?_⟩
        rw [← accepts_flipComparison hop, Ordering.swap_swap]
        exact hacc
    · cases hτ

/-! ## Ranges -/

def comparisonTerm : Expr → Option RangeTerm
  | .binary left op right => if isOrderComparison op then (rangeTerm left op right).map Prod.snd else none
  | _ => none

def rangeTerms : Expr → List RangeTerm
  | .between e false low high => match intLiteral low, intLiteral high with
    | some lo, some hi => [⟨castsToText e, .gtEq, lo⟩, ⟨castsToText e, .ltEq, hi⟩]
    | _, _ => []
  | e => (flattenAndExprs e).filterMap comparisonTerm

/-- A conjunct is a comparison of the column with an integer that has inclusive bounds. -/
def IsConjunct (col : Text) (c : Expr) : Prop :=
  ∃ left op right τ, c = .binary left op right ∧ isOrderComparison op ∧ rangeTerm left op right = some (col, τ) ∧
    (comparisonBounds τ.op τ.value).isSome

variable {cs : List Expr}

/-- The merged bounds are those of the conjuncts together. -/
theorem mergeConjuncts_eq_some {column : Option Text} {lo' hi' : Option Int}
    (h : mergeConjuncts column lo hi cs = some (col, lo', hi')) : (∀ c ∈ column, c = col) ∧ (∀ c ∈ cs, IsConjunct col c) ∧
      ∀ v, withinBounds lo' hi' v = true ↔
        withinBounds lo hi v = true ∧ ∀ τ ∈ cs.filterMap comparisonTerm, τ.HoldsInt v := by
  fun_induction mergeConjuncts column lo hi cs with
  | case1 column lo hi =>
    obtain ⟨c, rfl, heq⟩ := map_eq_some_iff.mp h
    cases heq
    exact ⟨fun c hc => (Option.some.inj hc).symm, fun c hc => absurd hc not_mem_nil, fun v => by simp⟩
  | case2 column lo hi left op right rest hop ih =>
    obtain ⟨⟨c, termLo, termHi⟩, hterm, hrest⟩ := bind_eq_some_iff.mp h
    dsimp only at hrest
    split at hrest
    · cases hrest
    · next hsame =>
      obtain ⟨hcol, hall, hbounds⟩ := ih c termLo termHi hrest
      obtain rfl : c = col := hcol c rfl
      rw [intRangeTerm_eq] at hterm
      obtain ⟨⟨c', τ⟩, hτ, hb⟩ := bind_eq_some_iff.mp hterm
      obtain ⟨b, hb, heq⟩ := map_eq_some_iff.mp hb
      obtain ⟨rfl, rfl⟩ := Prod.mk.inj heq
      refine ⟨?_, ?_, ?_⟩
      · intro existing hmem
        rw [Option.mem_def] at hmem
        subst hmem
        simpa using hsame
      · intro e he
        rcases mem_cons.mp he with rfl | he
        · exact ⟨left, op, right, τ, rfl, hop, hτ, Option.isSome_iff_exists.mpr ⟨_, hb⟩⟩
        · exact hall e he
      · intro v
        have hhead : comparisonTerm (.binary left op right) = some τ := by simp [comparisonTerm, hop, hτ]
        rw [hbounds, withinBounds_merge, withinBounds_comparisonBounds τ.cast hb, filterMap_cons_some hhead,
          forall_mem_cons, and_assoc]
  | case3 | case4 => cases h

/-- A conjunction is TRUE when all of its conjuncts are. -/
theorem isTrue_iff_flattenAndExprs (e : Expr) : E.IsTrue row e ↔ ∀ c ∈ flattenAndExprs e, E.IsTrue row c := by
  fun_induction flattenAndExprs e with
  | case1 left right ihl ihr =>
    rw [forall_mem_append, ← ihl, ← ihr]
    unfold Engine.IsTrue
    rw [eval]
    simp [Engine.binary]
  | case2 e => simp

/-- What a predicate that is turned into a range says. -/
structure RangeReading (col : Text) (e : Expr) (lo hi : Option Int) : Prop where
  nonempty : rangeTerms e ≠ []
  order : ∀ τ ∈ rangeTerms e, isOrderComparison τ.op
  fits : ∀ τ ∈ rangeTerms e, int64.Fits τ.value
  bounded : ∀ τ ∈ rangeTerms e, (comparisonBounds τ.op τ.value).isSome
  bounds : ∀ v, withinBounds lo hi v = true ↔ ∀ τ ∈ rangeTerms e, τ.HoldsInt v
  meaning : ∀ (E : Engine) (row : Row) (t : DataType), E.RendersText → t.Holds (row col) →
    (t = .boolean → ∀ τ ∈ rangeTerms e, τ.cast = true) →
    (E.IsTrue row e ↔ ∀ τ ∈ rangeTerms e, τ.HoldsValue (row col))

theorem rangeTerm_fits (hop : isOrderComparison op)
    (h : rangeTerm left op right = some (col, τ)) : isOrderComparison τ.op ∧ int64.Fits τ.value := by
  unfold rangeTerm at h
  split at h
  · next c value hc hv =>
    cases h
    exact ⟨hop, intLiteral_fits hv⟩
  · split at h
    · next value c hv hc =>
      cases h
      refine ⟨?_, intLiteral_fits hv⟩
      rcases hop with rfl | rfl | rfl | rfl <;> simp [flipComparison, isOrderComparison]
    · cases h

theorem mem_filterMap_comparisonTerm (hall : ∀ c ∈ cs, IsConjunct col c) :
    τ ∈ cs.filterMap comparisonTerm ↔ ∃ left op right, .binary left op right ∈ cs ∧ isOrderComparison op ∧
      rangeTerm left op right = some (col, τ) ∧ (comparisonBounds τ.op τ.value).isSome := by
  rw [mem_filterMap]
  constructor
  · rintro ⟨c, hc, hτ⟩
    obtain ⟨left, op, right, τ', rfl, hop, hterm, hb⟩ := hall c hc
    simp only [comparisonTerm, if_pos hop, hterm, Option.map_some, Option.some.injEq] at hτ
    subst hτ
    exact ⟨left, op, right, hc, hop, hterm, hb⟩
  · rintro ⟨left, op, right, hc, hop, hterm, -⟩
    exact ⟨_, hc, by simp [comparisonTerm, hop, hterm]⟩

theorem RangeReading.ofConjuncts
    (hflat : flattenAndExprs e = cs) (hterms : rangeTerms e = cs.filterMap comparisonTerm) (hne : cs ≠ [])
    (h : mergeConjuncts none none none cs = some (col, lo, hi)) : RangeReading col e lo hi := by
  obtain ⟨-, hall, hbounds⟩ := mergeConjuncts_eq_some h
  have hmem := fun τ => mem_filterMap_comparisonTerm hall (τ := τ)
  refine ⟨?_, ?_, ?_, ?_, ?_, ?_⟩
  · obtain ⟨c, rest, rfl⟩ := exists_cons_of_ne_nil hne
    obtain ⟨left, op, right, τ, rfl, hop, hτ⟩ := hall c mem_cons_self
    have hin : τ ∈ rangeTerms e := hterms ▸ (hmem τ).mpr ⟨left, op, right, mem_cons_self, hop, hτ⟩
    exact ne_nil_of_mem hin
  · intro τ hτ
    obtain ⟨left, op, right, -, hop, hterm, -⟩ := (hmem τ).mp (hterms ▸ hτ)
    exact (rangeTerm_fits hop hterm).1
  · intro τ hτ
    obtain ⟨left, op, right, -, hop, hterm, -⟩ := (hmem τ).mp (hterms ▸ hτ)
    exact (rangeTerm_fits hop hterm).2
  · intro τ hτ
    obtain ⟨left, op, right, -, -, -, hb⟩ := (hmem τ).mp (hterms ▸ hτ)
    exact hb
  · intro v
    rw [hbounds, hterms]
    simp [withinBounds]
  · intro E row t hE hrow hcast
    rw [isTrue_iff_flattenAndExprs, hflat]
    constructor
    · intro htrue τ hτ
      obtain ⟨left, op, right, hc, hop, hterm, -⟩ := (hmem τ).mp (hterms ▸ hτ)
      exact (isTrue_of_rangeTerm hE hop hterm hrow fun ht => hcast ht τ hτ).mp (htrue _ hc)
    · intro hholds c hc
      obtain ⟨left, op, right, τ, rfl, hop, hterm, hb⟩ := hall c hc
      have hτ : τ ∈ rangeTerms e := hterms ▸ (hmem τ).mpr ⟨left, op, right, hc, hop, hterm, hb⟩
      exact (isTrue_of_rangeTerm hE hop hterm hrow fun ht => hcast ht τ hτ).mpr (hholds τ hτ)

theorem RangeReading.ofBetween {low high : Expr} {lo hi : Int} (hcol : unwrapAliasToColumn e = some col)
    (hlo : intLiteral low = some lo) (hhi : intLiteral high = some hi) :
    RangeReading col (.between e false low high) (some lo) (some hi) := by
  have hterms : rangeTerms (.between e false low high) = [⟨castsToText e, .gtEq, lo⟩, ⟨castsToText e, .ltEq, hi⟩] := by
    simp [rangeTerms, hlo, hhi]
  refine ⟨by rw [hterms]; exact cons_ne_nil _ _, ?_, ?_, ?_, ?_, ?_⟩
  · rw [hterms]
    simp [isOrderComparison]
  · rw [hterms]
    simpa using ⟨intLiteral_fits hlo, intLiteral_fits hhi⟩
  · rw [hterms]
    simp [comparisonBounds]
  · intro v
    rw [hterms]
    simp [withinBounds, RangeTerm.HoldsInt, RangeTerm.Accepts, holds]
  · intro E row t hE hrow hcast
    rw [hterms] at hcast ⊢
    have hcast' : t = .boolean → castsToText e = true := fun ht => hcast ht _ mem_cons_self
    unfold Engine.IsTrue
    rw [eval, eval_of_unwrapAliasToColumn hE hcol hrow, eval_of_intLiteral hE hlo, eval_of_intLiteral hE hhi]
    have hge := compare_readAs_int (E := E) hrow hcast' .gtEq lo
    have hle := compare_readAs_int (E := E) hrow hcast' .ltEq hi
    simp only [RangeTerm.Accepts, holds, Option.some.injEq, exists_eq_left'] at hge hle
    simp only [negateIf, Engine.between, Engine.compareOp, Value.truth_ofTruth, Bool.false_eq_true, if_false,
      Kleene.and_eq_true, map_eq_some_iff, hge, hle, forall_mem_cons, not_mem_nil, false_implies,
      implies_true, and_true]

/-- A range that is extracted is what the predicate says. -/
theorem rangeReading_of_extract
    (h : extractDimensionalPredicate e = some (col, .intRange lo hi)) : RangeReading col e lo hi := by
  unfold extractDimensionalPredicate at h
  split at h
  · next left right =>
    unfold setPredicate at h
    split at h
    · cases h
    · split at h <;> cases h
  · next left right =>
    unfold setPredicate at h
    split at h
    · cases h
    · split at h <;> cases h
  · next left right =>
    obtain ⟨⟨c, l, u⟩, hmerge, heq⟩ := map_eq_some_iff.mp h
    cases heq
    have hne : flattenAndExprs (.binary left .and right) ≠ [] := by
      have hall : ∀ e, flattenAndExprs e ≠ [] := by
        intro e
        fun_induction flattenAndExprs e with
        | case1 left right ihl _ => exact append_ne_nil_of_left_ne_nil ihl _
        | case2 e => exact cons_ne_nil _ _
      exact hall _
    exact RangeReading.ofConjuncts rfl rfl hne hmerge
  · next left op right hneq hnneq hnand =>
    split at h
    · next hop =>
      obtain ⟨⟨c, l, u⟩, hterm, heq⟩ := map_eq_some_iff.mp h
      cases heq
      have hflat : flattenAndExprs (.binary left op right) = [.binary left op right] := by
        rcases hop with rfl | rfl | rfl | rfl <;> rfl
      have hterms : rangeTerms (.binary left op right) = (flattenAndExprs (.binary left op right)).filterMap comparisonTerm :=
        rfl
      refine RangeReading.ofConjuncts hflat (by rw [hterms, hflat]) (cons_ne_nil _ _) ?_
      simp [mergeConjuncts, hop, hterm, mergeLo, mergeHi]
    · cases h
  · next e low high =>
    obtain ⟨c, hcol, h⟩ := bind_eq_some_iff.mp h
    obtain ⟨l, hlo, h⟩ := bind_eq_some_iff.mp h
    obtain ⟨u, hhi, heq⟩ := map_eq_some_iff.mp h
    cases heq
    exact RangeReading.ofBetween hcol hlo hhi
  · next e list negated =>
    obtain ⟨c, -, h⟩ := bind_eq_some_iff.mp h
    obtain ⟨values, -, h⟩ := bind_eq_some_iff.mp h
    split at h <;> cases h
  · cases h

/-! ## Sets of values -/

/-- The column operand and the literal of a comparison, in either order. -/
def operandPair (left right : Expr) : Expr × Expr :=
  if (unwrapAliasToColumn left).isSome then (left, right) else (right, left)

/-- The column operands of a predicate with the literals they are compared with. -/
def comparedPairs : Expr → List (Expr × Expr)
  | .between e _ low high => [(e, low), (e, high)]
  | .inList e list _ => list.map fun lit => (e, lit)
  | e => (flattenAndExprs e).filterMap fun c => match c with
    | .binary left _ right => some (operandPair left right)
    | _ => none

theorem boolLiteral_eq_none_of_intLiteral {v : Int} (h : intLiteral e = some v) : boolLiteral e = none := by
  fun_induction boolLiteral e with
  | case1 e name ih => exact ih h
  | case2 b => cases h
  | case3 => rfl

theorem operandPair_of_rangeTerm (h : rangeTerm left op right = some (col, τ)) :
    castsToText (operandPair left right).1 = τ.cast ∧ boolLiteral (operandPair left right).2 = none := by
  unfold rangeTerm at h
  split at h
  · next c value hc hv =>
    cases h
    rw [operandPair, hc]
    exact ⟨rfl, boolLiteral_eq_none_of_intLiteral hv⟩
  · split at h
    · next value c hv hc =>
      cases h
      have hleft : unwrapAliasToColumn left = none := by
        cases hcol : unwrapAliasToColumn left with
        | none => rfl
        | some c' =>
          rw [(footerKeyLiteral_eq_none_of_column hcol).2.1] at hv
          cases hv
      rw [operandPair, hleft]
      exact ⟨rfl, boolLiteral_eq_none_of_intLiteral hv⟩
    · cases h

/-- Every comparison is between values the engine is known to compare: a boolean with a boolean literal, a string or an
integer with a string or an integer literal. -/
def WellTyped (t : DataType) (e : Expr) : Prop :=
  ∀ p ∈ comparedPairs e, (t = .boolean ∧ castsToText p.1 = false) ↔ (boolLiteral p.2).isSome = true

variable {key : Text}

theorem eval_of_footerKeyLiteral (hE : E.RendersText) (row : Row) (h : footerKeyLiteral e = some key) :
    ((∃ b, boolLiteral e = some b ∧ key = renderBool b ∧ E.eval row e = .bool b) ∨
      (boolLiteral e).isSome = false ∧ (E.eval row e = .text key ∨ ∃ i, key = renderInt i ∧ E.eval row e = .int i)) := by
  have hbool : ∀ b, boolLiteral e = some b → stringLiteral e = none ∧ intLiteral e = none := by
    intro b hb
    fun_induction boolLiteral e with
    | case1 e name ih => exact ih h hb
    | case2 b' => exact ⟨rfl, rfl⟩
    | case3 => cases hb
  have hnobool : stringLiteral e ≠ none ∨ intLiteral e ≠ none → (boolLiteral e).isSome = false := by
    intro hne
    cases hb : boolLiteral e with
    | none => rfl
    | some b => exact absurd (hbool b hb) (by tauto)
  unfold footerKeyLiteral at h
  split at h
  · next s hs =>
    rw [Option.some.injEq] at h
    subst h
    exact .inr ⟨hnobool (.inl (by simp [hs])), Or.inl (eval_of_stringLiteral hs)⟩
  · split at h
    · next i hi =>
      rw [Option.some.injEq] at h
      exact .inr ⟨hnobool (.inr (by simp [hi])), Or.inr ⟨i, h.symm, eval_of_intLiteral hE hi⟩⟩
    · obtain ⟨b, hb, rfl⟩ := map_eq_some_iff.mp h
      exact .inl ⟨b, hb, rfl, eval_of_boolLiteral hb⟩

theorem renderInt_inj {i j : Int} : renderInt i = renderInt j ↔ i = j :=
  ⟨fun h => Decimal.render_injective h, fun h => by rw [h]⟩

theorem renderBool_inj {a b : Bool} : renderBool a = renderBool b ↔ a = b := by
  cases a <;> cases b <;> decide

/-- A value equals a literal exactly when its key is the literal's. -/
theorem compare_isEq_key (hE : E.RendersText) (hv : t.Holds v) {lit : Expr} (hlit : footerKeyLiteral lit = some key)
    (hty : (t = .boolean ∧ cast = false) ↔ (boolLiteral lit).isSome = true) :
    (E.compare (readAs cast v) (E.eval row lit)).map isEq = (renderKey v).map (fun k => decide (k = key)) ∧
      (E.compare (E.eval row lit) (readAs cast v)).map isEq = (renderKey v).map (fun k => decide (k = key)) := by
  rcases eval_of_footerKeyLiteral hE row hlit with ⟨b, hb, rfl, hev⟩ | ⟨hb, hev⟩
  · -- A boolean literal: the column is a boolean column, read directly.
    rw [hb] at hty
    obtain ⟨rfl, rfl⟩ := hty.mpr rfl
    rw [hev]
    cases v with
    | null => exact ⟨rfl, rfl⟩
    | bool a => exact ⟨by simp [readAs, renderKey, Engine.compare, isEq_cmp_eq_decide, renderBool_inj],
        by simp [readAs, renderKey, Engine.compare, isEq_cmp_comm_eq_decide a, renderBool_inj]⟩
    | _ => exact hv.elim
  · have hnot : ¬ (t = .boolean ∧ cast = false) := fun h => by simpa [hb] using hty.mp h
    have hread : readAs cast v = .null ∧ v = .null ∨ ∃ k, renderKey v = some k ∧
        (readAs cast v = .text k ∨ ∃ i, k = renderInt i ∧ readAs cast v = .int i) := by
      cases v with
      | null => cases cast <;> exact .inl ⟨rfl, rfl⟩
      | int i =>
        refine .inr ⟨renderInt i, rfl, ?_⟩
        cases cast
        · exact .inr ⟨i, rfl, rfl⟩
        · exact .inl rfl
      | text s => cases cast <;> exact .inr ⟨s, rfl, Or.inl rfl⟩
      | bool a =>
        have ht : t = .boolean := by cases t <;> first | rfl | exact hv.elim
        cases cast
        · exact absurd ⟨ht, rfl⟩ hnot
        · exact .inr ⟨renderBool a, rfl, Or.inl rfl⟩
      | _ => cases t <;> exact hv.elim
    rcases hread with ⟨hnull, rfl⟩ | ⟨k, hk, hread⟩
    · rw [hnull]
      rcases hev with hev | ⟨i, -, hev⟩ <;> rw [hev] <;> exact ⟨rfl, rfl⟩
    · rw [hk]
      rcases hread with hread | ⟨i, rfl, hread⟩ <;> rcases hev with hev | ⟨j, rfl, hev⟩
      · exact ⟨by simp [hread, hev, Engine.compare, isEq_cmp_eq_decide],
          by simp [hread, hev, Engine.compare, isEq_cmp_comm_eq_decide k]⟩
      · exact ⟨by simp [hread, hev, Engine.compare, isEq_cmp_eq_decide],
          by simp [hread, hev, Engine.compare, isEq_cmp_comm_eq_decide k]⟩
      · exact ⟨by simp [hread, hev, Engine.compare, isEq_cmp_eq_decide],
          by simp [hread, hev, Engine.compare, isEq_cmp_comm_eq_decide (renderInt i)]⟩
      · exact ⟨by simp [hread, hev, Engine.compare, isEq_cmp_eq_decide, renderInt_inj],
          by simp [hread, hev, Engine.compare, isEq_cmp_comm_eq_decide i, renderInt_inj]⟩

theorem operandPair_of_column (h : unwrapAliasToColumn left = some col) : operandPair left right = (left, right) := by
  rw [operandPair, h]
  rfl

theorem operandPair_of_literal (h : footerKeyLiteral left = some key) : operandPair left right = (right, left) := by
  unfold operandPair
  cases hcol : unwrapAliasToColumn left with
  | none => rfl
  | some col =>
    obtain ⟨hs, hi, hb⟩ := footerKeyLiteral_eq_none_of_column hcol
    simp [footerKeyLiteral, hs, hi, hb] at h

theorem equality_of_setPredicate (hE : E.RendersText)
    {negated : Bool} {p : DimCountPredicate} (h : setPredicate left right negated = some (col, p)) (hrow : t.Holds (row col))
    (hty : (t = .boolean ∧ castsToText (operandPair left right).1 = false) ↔
      (boolLiteral (operandPair left right).2).isSome = true) : ∃ key, p = .set [key] negated ∧
      (E.compare (E.eval row left) (E.eval row right)).map isEq =
        (renderKey (row col)).map (fun k => decide (k = key)) := by
  unfold setPredicate at h
  split at h
  · next c key hcol hkey =>
    cases h
    rw [operandPair_of_column hcol] at hty
    refine ⟨key, rfl, ?_⟩
    rw [eval_of_unwrapAliasToColumn hE hcol hrow]
    exact (compare_isEq_key hE hrow hkey hty).1
  · split at h
    · next key c hkey hcol =>
      cases h
      rw [operandPair_of_literal hkey] at hty
      refine ⟨key, rfl, ?_⟩
      rw [eval_of_unwrapAliasToColumn hE hcol hrow]
      exact (compare_isEq_key hE hrow hkey hty).2
    · cases h

theorem map_compareOp_literals (hE : E.RendersText) (hv : t.Holds v) {list : List Expr} {keys : List Text}
    (hkeys : List.Forall₂ (fun lit key => footerKeyLiteral lit = some key) list keys)
    (hty : ∀ lit ∈ list, (t = .boolean ∧ cast = false) ↔ (boolLiteral lit).isSome = true) :
    list.map (E.compareOp isEq (readAs cast v) ∘ E.eval row) =
      keys.map fun key => (renderKey v).map fun k => decide (k = key) := by
  induction hkeys with
  | nil => rfl
  | cons hkey _ ih =>
    rw [map_cons, map_cons, ih fun lit hlit => hty lit (mem_cons_of_mem _ hlit)]
    exact congrArg (· :: _) (compare_isEq_key hE hv hkey (hty _ mem_cons_self)).1

/-- A set that is extracted is what the predicate says. -/
theorem isTrue_of_set (hE : E.RendersText)
    {values : List Text} {negated : Bool} (h : extractDimensionalPredicate e = some (col, .set values negated))
    (hrow : t.Holds (row col)) (hty : WellTyped t e) :
    E.IsTrue row e ↔ ∃ key, renderKey (row col) = some key ∧ (values.any (fun v => v == key) != negated) = true := by
  unfold extractDimensionalPredicate at h
  split at h
  · next left right =>
    obtain ⟨key, hset, hcmp⟩ := equality_of_setPredicate hE h hrow (hty _ mem_cons_self)
    cases hset
    unfold Engine.IsTrue
    rw [eval]
    simp only [Engine.binary, holds, Engine.compareOp, hcmp, Value.truth_ofTruth]
    cases renderKey (row col) with
    | none => simp
    | some k => simpa using eq_comm
  · next left right =>
    obtain ⟨key, hset, hcmp⟩ := equality_of_setPredicate hE h hrow (hty _ mem_cons_self)
    cases hset
    have hne : (E.compare (E.eval row left) (E.eval row right)).map isNe =
        ((E.compare (E.eval row left) (E.eval row right)).map isEq).map Bool.not := by
      cases E.compare (E.eval row left) (E.eval row right) with
      | none => rfl
      | some o => cases o <;> rfl
    unfold Engine.IsTrue
    rw [eval]
    simp only [Engine.binary, holds, Engine.compareOp, hne, hcmp, Value.truth_ofTruth]
    cases renderKey (row col) with
    | none => simp
    | some k => simpa using not_congr eq_comm
  · obtain ⟨⟨c, l, u⟩, -, heq⟩ := map_eq_some_iff.mp h
    cases heq
  · split at h
    · obtain ⟨⟨c, l, u⟩, -, heq⟩ := map_eq_some_iff.mp h
      cases heq
    · cases h
  · obtain ⟨c, -, h⟩ := bind_eq_some_iff.mp h
    obtain ⟨l, -, h⟩ := bind_eq_some_iff.mp h
    obtain ⟨u, -, heq⟩ := map_eq_some_iff.mp h
    cases heq
  · next e list neg =>
    obtain ⟨c, hcol, h⟩ := bind_eq_some_iff.mp h
    obtain ⟨keys, hkeys, h⟩ := bind_eq_some_iff.mp h
    split at h
    · cases h
    · next hne =>
      cases h
      have hlist : (list.map (E.eval row)).map (E.compareOp isEq (E.eval row e)) =
          values.map fun key => (renderKey (row col)).map fun k => decide (k = key) := by
        rw [map_map, eval_of_unwrapAliasToColumn hE hcol hrow]
        exact map_compareOp_literals hE hrow (AssocList.forall₂_of_mapM hkeys) fun lit hlit =>
          hty (e, lit) (mem_map.mpr ⟨lit, hlit, rfl⟩)
      unfold Engine.IsTrue
      rw [eval, Engine.evalList_eq_map, Engine.inList, hlist, Value.truth_ofTruth]
      cases hkey : renderKey (row col) with
      | none =>
        have hnil : values ≠ [] := by simpa using hne
        simp only [Option.map_none]
        rw [Kleene.any_map_none hnil]
        cases negated <;> simp [negateIf, Kleene.not]
      | some k =>
        simp only [Option.map_some]
        rw [Kleene.any_map_some]
        have hcomm : (values.any fun key => decide (k = key)) = values.any fun v => v == k := by
          refine congrArg _ (funext fun key => ?_)
          rw [Bool.eq_iff_iff, decide_eq_true_iff, beq_iff_eq, eq_comm]
        rw [hcomm]
        cases negated <;> simp [negateIf, Kleene.not]
  · cases h

end LogLake
