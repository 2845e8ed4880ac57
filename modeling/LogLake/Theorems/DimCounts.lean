import LogLake.Lemmas.DimCount

/-! # When a footer count is the query's count -/

namespace LogLake

open List RangeTerm Option
open IntType (int64 uint64)
open DimCountPredicate (intRange matchesKey)

/-- The counts of one column over the rows of a table. -/
def columnCounts (col : Text) (rows : List Row) : GroupCounts := groupCounts (rows.map fun row => renderKey (row col))

/-- The footer count is the number of rows on which the filter is true, for every table whose column has the type. -/
def CountsExact (E : Engine) (t : DataType) (filter : Expr) (col : Text) (predicate : DimCountPredicate) : Prop :=
  ∀ rows : List Row, (∀ row ∈ rows, t.Holds (row col)) →
    negationCount predicate (columnCounts col rows) = rows.countP fun row => decide (E.IsTrue row filter)

def RangesExact (t : DataType) (filter : Expr) : Prop :=
  match t with
  | .int it =>
    (∀ v, it.Fits v → ((∀ τ ∈ rangeTerms filter, τ.Holds v) ↔ ∀ τ ∈ rangeTerms filter, τ.HoldsInt v)) ∧
      (it = .uint64 → rangeTerms filter = [] ∨ ∃ τ ∈ rangeTerms filter, τ.boundsAbove = true)
  | .boolean => rangeTerms filter = [] ∨ ∀ b, ¬ ∀ τ ∈ rangeTerms filter, τ.HoldsText (renderBool b)
  | .text _ => rangeTerms filter = [] ∨ (∀ s, ¬ ∀ τ ∈ rangeTerms filter, τ.HoldsText s) ∧
      ∀ v, int64.Fits v → ¬ ∀ τ ∈ rangeTerms filter, τ.HoldsInt v
  | _ => True

/-! ## From tables to values -/

theorem negationCount_columnCounts (predicate : DimCountPredicate) (col : Text) (rows : List Row) :
    negationCount predicate (columnCounts col rows) =
      rows.countP fun row => (renderKey (row col)).any predicate.matchesKey := by
  rw [columnCounts, negationCount_groupCounts, countP_map]
  rfl

variable {filter : Expr} {col : Text}

theorem countsExact_iff {E : Engine} {t : DataType} {predicate : DimCountPredicate} :
    CountsExact E t filter col predicate ↔ ∀ row : Row, t.Holds (row col) →
      ((∃ key, renderKey (row col) = some key ∧ predicate.matchesKey key = true) ↔ E.IsTrue row filter) := by
  have hany : ∀ row : Row, (renderKey (row col)).any predicate.matchesKey = true ↔
      ∃ key, renderKey (row col) = some key ∧ predicate.matchesKey key = true := fun row => Option.any_eq_true ..
  constructor
  · intro hexact row hrow
    have hone := hexact [row] fun r hr => mem_singleton.mp hr ▸ hrow
    rw [negationCount_columnCounts, countP_singleton, countP_singleton] at hone
    rw [← hany, ← decide_eq_true_iff (p := E.IsTrue row filter)]
    by_cases h : (renderKey (row col)).any predicate.matchesKey = true <;>
      by_cases h' : decide (E.IsTrue row filter) = true <;> simp_all
  · intro hall rows hrows
    rw [negationCount_columnCounts]
    refine countP_congr fun row hrow => ?_
    rw [hany, hall row (hrows row hrow), decide_eq_true_iff]

/-! ## Ranges, by the type of the column -/

variable {lo hi : Option Int}

theorem matchesKey_intRange {col key : Text} (h : RangeReading col filter lo hi) : (intRange lo hi).matchesKey key = true ↔
      ∃ v, parseI64 key = some v ∧ ∀ τ ∈ rangeTerms filter, τ.HoldsInt v := by
  unfold matchesKey
  rw [Option.any_eq_true]
  simp only [h.bounds]

theorem parseI64_renderInt (v : Int) : parseI64 (renderInt v) = int64.checked v := by
  have hparse : Decimal.parse (renderInt v) = some v := Decimal.parse_render v
  rw [parseI64, hparse]
  rfl

theorem matchesKey_renderInt (h : RangeReading col filter lo hi) (v : Int) :
    (intRange lo hi).matchesKey (renderInt v) = true ↔ int64.Fits v ∧ ∀ τ ∈ rangeTerms filter, τ.HoldsInt v := by
  rw [matchesKey_intRange h, parseI64_renderInt]
  unfold IntType.checked
  split
  · next hfits => simp [hfits]
  · next hfits => simp [hfits]

variable {it : IntType}

theorem IntType.int64_fits_of_fits {v : Int} (h : it.Fits v) (hne : it ≠ .uint64) : int64.Fits v := by
  cases it <;> simp only [IntType.Fits, IntType.min, IntType.max] at h ⊢ <;> first | omega | exact absurd rfl hne

section Range

variable (h : RangeReading col filter lo hi)
include h

theorem RangeReading.fits_of_above {v : Int} (hv : it.Fits v) (hall : ∀ τ ∈ rangeTerms filter, τ.HoldsInt v)
    (habove : it = .uint64 → ∃ τ ∈ rangeTerms filter, τ.boundsAbove = true) : int64.Fits v := by
  by_cases hit : it = .uint64
  · obtain ⟨τ, hτ, hτa⟩ := habove hit
    have hle : v ≤ τ.value := le_of_accepts_above (h.order τ hτ) hτa (hall τ hτ)
    have hvalue := h.fits τ hτ
    subst hit
    simp only [IntType.Fits, IntType.min, IntType.max] at hv hvalue ⊢
    omega
  · exact IntType.int64_fits_of_fits hv hit

theorem RangeReading.holdsInt_max (hbelow : ∀ τ ∈ rangeTerms filter, τ.boundsAbove = false) :
    ∀ τ ∈ rangeTerms filter, τ.HoldsInt int64.max := by
  intro τ hτ
  have hfits := h.fits τ hτ
  rcases h.order τ hτ with hop | hop | hop | hop
  · -- The literal of a strict comparison has a successor that fits.
    have hb := h.bounded τ hτ
    rw [hop, comparisonBounds, isSome_map] at hb
    obtain ⟨w, hw⟩ := isSome_iff_exists.mp hb
    obtain ⟨-, hsucc⟩ := IntType.checked_eq_some hw
    simp only [IntType.Fits] at hsucc
    exact accepts_of_gt (h.order τ hτ) (hbelow τ hτ) (by omega)
  · exact ⟨_, by rw [hop]; rfl, Comparison.isGE_cmp.mpr hfits.2⟩
  · have := hbelow τ hτ
    simp [boundsAbove, hop] at this
  · have := hbelow τ hτ
    simp [boundsAbove, hop] at this

theorem RangeReading.exists_above_of_exact (hexact : ∀ v, uint64.Fits v →
      ((int64.Fits v ∧ ∀ τ ∈ rangeTerms filter, τ.HoldsInt v) ↔ ∀ τ ∈ rangeTerms filter, τ.Holds v)) :
    ∃ τ ∈ rangeTerms filter, τ.boundsAbove = true := by
  by_contra hnone
  have hbelow : ∀ τ ∈ rangeTerms filter, τ.boundsAbove = false := by
    intro τ hτ
    cases hτa : τ.boundsAbove with
    | false => rfl
    | true => exact absurd ⟨τ, hτ, hτa⟩ hnone
  have hmax := (hexact int64.max (by decide)).mp ⟨by decide, h.holdsInt_max hbelow⟩
  have hnext : ∀ τ ∈ rangeTerms filter, τ.Holds (int64.max + 1) := by
    intro τ hτ
    have hheld := hmax τ hτ
    unfold RangeTerm.Holds at hheld ⊢
    by_cases hcast : τ.cast = true
    · rw [if_pos hcast] at hheld ⊢
      have hle : renderInt τ.value ≤ renderInt int64.max :=
        le_of_accepts (h.order τ hτ) (hbelow τ hτ) hheld
      have hlt : renderInt int64.max < renderInt (int64.max + 1) := by decide
      exact accepts_of_gt (h.order τ hτ) (hbelow τ hτ) (lt_of_le_of_lt hle hlt)
    · rw [if_neg hcast]
      exact accepts_of_gt (h.order τ hτ) (hbelow τ hτ) (Int.lt_add_one_of_le (h.fits τ hτ).2)
  exact absurd ((hexact _ (by decide)).mpr hnext).1 (by decide)

theorem RangeReading.exact_int_iff :
    (∀ v, it.Fits v → ((int64.Fits v ∧ ∀ τ ∈ rangeTerms filter, τ.HoldsInt v) ↔ ∀ τ ∈ rangeTerms filter, τ.Holds v)) ↔
      RangesExact (.int it) filter := by
  constructor
  · intro hexact
    have habove : it = .uint64 → ∃ τ ∈ rangeTerms filter, τ.boundsAbove = true := by
      intro hit
      subst hit
      exact h.exists_above_of_exact hexact
    refine ⟨fun v hv => ⟨fun hall => ((hexact v hv).mpr hall).2, fun hall => ?_⟩, fun hit => Or.inr (habove hit)⟩
    exact (hexact v hv).mp ⟨h.fits_of_above hv hall habove, hall⟩
  · intro ⟨hagree, habove⟩ v hv
    refine ⟨fun hall => (hagree v hv).mpr hall.2, fun hall => ?_⟩
    have hint := (hagree v hv).mp hall
    exact ⟨h.fits_of_above hv hint fun hit => (habove hit).resolve_left h.nonempty, hint⟩

theorem RangeReading.holdsInt_false_of_exact
    (hexact : ∀ s, (∃ v, parseI64 s = some v ∧ ∀ τ ∈ rangeTerms filter, τ.HoldsInt v) ↔ ∀ τ ∈ rangeTerms filter, τ.HoldsText s)
    {v : Int} (hv : int64.Fits v) : ¬ ∀ τ ∈ rangeTerms filter, τ.HoldsInt v := by
  intro hall
  have hchecked : int64.checked v = some v := if_pos hv
  by_cases hlower : ∃ τ ∈ rangeTerms filter, τ.boundsAbove = false
  · obtain ⟨τ, hτ, hbelow⟩ := hlower
    have hle : τ.value ≤ v := le_of_accepts (h.order τ hτ) hbelow (hall τ hτ)
    cases v with
    | ofNat n =>
      -- The number with a plus sign comes before every decimal string.
      have hread : parseI64 ('+' :: Nat.toDigits 10 n) = some (Int.ofNat n) := by
        rw [parseI64, Decimal.parse, Decimal.parseNat_toDigits]
        exact hchecked
      have htext := (hexact _).mp ⟨_, hread, hall⟩ τ hτ
      exact absurd (le_of_accepts (h.order τ hτ) hbelow htext) (not_le.mpr (Decimal.plus_cons_lt_render _ _))
    | negSucc n =>
      -- The number with a leading zero comes before every negative decimal string.
      have hread : parseI64 ('-' :: '0' :: Nat.toDigits 10 (n + 1)) = some (Int.negSucc n) := by
        have hneg : -((n + 1 : Nat) : Int) = Int.negSucc n := rfl
        rw [parseI64, Decimal.parse, Decimal.parseNat_zero_cons_toDigits, map_some, bind_some, hneg, hchecked]
      have htext := (hexact _).mp ⟨_, hread, hall⟩ τ hτ
      have hneg : τ.value < 0 := lt_of_le_of_lt hle (Int.negSucc_lt_zero n)
      exact absurd (le_of_accepts (h.order τ hτ) hbelow htext)
        (not_le.mpr (Decimal.minus_zero_cons_lt_render _ hneg))
  · -- The empty string comes before every decimal string and is not read as a number.
    have htext : ∀ τ ∈ rangeTerms filter, τ.HoldsText [] := by
      intro τ hτ
      have habove : τ.boundsAbove = true := by
        cases hτa : τ.boundsAbove with
        | true => rfl
        | false => exact absurd ⟨τ, hτ, hτa⟩ hlower
      exact accepts_of_lt (h.order τ hτ) habove (Decimal.nil_lt_render _)
    obtain ⟨w, hw, -⟩ := (hexact []).mpr htext
    have hempty : parseI64 [] = none := rfl
    rw [hempty] at hw
    cases hw

theorem RangeReading.exact_text_iff (tt : TextType) :
    (∀ s, (∃ v, parseI64 s = some v ∧ ∀ τ ∈ rangeTerms filter, τ.HoldsInt v) ↔ ∀ τ ∈ rangeTerms filter, τ.HoldsText s) ↔
      RangesExact (.text tt) filter := by
  have hfits : ∀ {s v}, parseI64 s = some v → int64.Fits v := by
    intro s v hs
    obtain ⟨w, -, hw⟩ := bind_eq_some_iff.mp hs
    obtain ⟨rfl, hfit⟩ := IntType.checked_eq_some hw
    exact hfit
  constructor
  · intro hexact
    have hnoint := fun v (hv : int64.Fits v) => h.holdsInt_false_of_exact hexact hv
    refine Or.inr ⟨fun s hall => ?_, hnoint⟩
    obtain ⟨v, hs, hint⟩ := (hexact s).mpr hall
    exact hnoint v (hfits hs) hint
  · intro hexact s
    obtain ⟨hnotext, hnoint⟩ := hexact.resolve_left h.nonempty
    exact ⟨fun ⟨v, hs, hint⟩ => absurd hint (hnoint v (hfits hs)), fun htext => absurd htext (hnotext s)⟩

end Range

/-! ## The main result -/

theorem parseI64_renderBool (b : Bool) : parseI64 (renderBool b) = none := by
  cases b <;> decide

theorem countsExact_intRange_iff {E : Engine} (hE : E.RendersText) {t : DataType} (ht : dimCountKeyRenderingIsExact t = true)
    (h : RangeReading col filter lo hi) (hcast : t = .boolean → ∀ τ ∈ rangeTerms filter, τ.cast = true) :
    CountsExact E t filter col (.intRange lo hi) ↔ RangesExact t filter := by
  have hmeaning := fun row hrow => h.meaning E row t hE hrow hcast
  obtain ⟨τ₀, hτ₀⟩ := exists_mem_of_ne_nil _ h.nonempty
  rw [countsExact_iff]
  cases t with
  | int it =>
    rw [← h.exact_int_iff]
    constructor
    · intro hall v hv
      have hrow := hall (fun _ => .int v) hv
      rw [hmeaning (fun _ => .int v) hv] at hrow
      simpa [renderKey, matchesKey_renderInt h, RangeTerm.HoldsValue] using hrow
    · intro hexact row hrow
      rw [hmeaning row hrow]
      cases hvalue : row col with
      | null => exact ⟨fun hkey => absurd hkey (by simp [renderKey]), fun hall => (hall τ₀ hτ₀).elim⟩
      | int v =>
        rw [hvalue] at hrow
        simpa [renderKey, matchesKey_renderInt h, RangeTerm.HoldsValue] using hexact v hrow
      | _ => rw [hvalue] at hrow; exact hrow.elim
  | text tt =>
    rw [← h.exact_text_iff tt]
    constructor
    · intro hall s
      have hrow := hall (fun _ => .text s) trivial
      rw [hmeaning (fun _ => .text s) trivial] at hrow
      simpa [renderKey, matchesKey_intRange h, RangeTerm.HoldsValue] using hrow
    · intro hexact row hrow
      rw [hmeaning row hrow]
      cases hvalue : row col with
      | null => exact ⟨fun hkey => absurd hkey (by simp [renderKey]), fun hall => (hall τ₀ hτ₀).elim⟩
      | text s => simpa [renderKey, matchesKey_intRange h, RangeTerm.HoldsValue] using hexact s
      | _ => rw [hvalue] at hrow; exact hrow.elim
  | boolean =>
    have hnone : ∀ b, ¬ ∃ key, renderKey (.bool b) = some key ∧
        (intRange lo hi).matchesKey key = true := by
      intro b hsome
      obtain ⟨key, hkey, hmatch⟩ := hsome
      cases hkey
      obtain ⟨v, hv, -⟩ := (matchesKey_intRange h).mp hmatch
      rw [parseI64_renderBool] at hv
      cases hv
    constructor
    · intro hall
      refine Or.inr fun b htext => hnone b ?_
      exact (hall (fun _ => .bool b) trivial).mpr ((hmeaning (fun _ => .bool b) trivial).mpr htext)
    · intro hexact row hrow
      have hno := hexact.resolve_left h.nonempty
      rw [hmeaning row hrow]
      cases hvalue : row col with
      | null => exact ⟨fun hkey => absurd hkey (by simp [renderKey]), fun hall => (hall τ₀ hτ₀).elim⟩
      | bool b => exact ⟨fun hkey => absurd hkey (hnone b), fun hall => absurd hall (hno b)⟩
      | _ => rw [hvalue] at hrow; exact hrow.elim
  | _ => cases ht

theorem rangeTerms_of_set {e : Expr} {values : List Text} {negated : Bool}
    (h : extractDimensionalPredicate e = some (col, .set values negated)) : rangeTerms e = [] := by
  unfold extractDimensionalPredicate at h
  split at h
  · rfl
  · rfl
  · obtain ⟨⟨c, l, u⟩, -, heq⟩ := map_eq_some_iff.mp h
    cases heq
  · split at h
    · obtain ⟨⟨c, l, u⟩, -, heq⟩ := map_eq_some_iff.mp h
      cases heq
    · cases h
  · obtain ⟨c, -, h⟩ := bind_eq_some_iff.mp h
    obtain ⟨l, -, h⟩ := bind_eq_some_iff.mp h
    obtain ⟨u, -, heq⟩ := map_eq_some_iff.mp h
    cases heq
  · rfl
  · cases h

theorem WellTyped.cast_of_boolean {e : Expr} (hty : WellTyped .boolean e) : ∀ τ ∈ rangeTerms e, τ.cast = true := by
  have hcast : ∀ p ∈ comparedPairs e, boolLiteral p.2 = none → castsToText p.1 = true := by
    intro p hp hlit
    have hiff := hty p hp
    rw [hlit] at hiff
    simpa using hiff
  intro τ hτ
  unfold rangeTerms at hτ
  split at hτ
  · next e' low high =>
    split at hτ
    · next lo' hi' hlo _ =>
      have hread := hcast (e', low) mem_cons_self (boolLiteral_eq_none_of_intLiteral hlo)
      rcases mem_cons.mp hτ with rfl | hτ
      · exact hread
      · rw [mem_singleton.mp hτ]
        exact hread
    · cases hτ
  · obtain ⟨c, hc, hterm⟩ := mem_filterMap.mp hτ
    cases c with
    | binary left op right =>
      have hpair : operandPair left right ∈ comparedPairs e := by
        cases e with
        | binary left' op' right' => exact mem_filterMap.mpr ⟨_, hc, rfl⟩
        | _ => cases mem_singleton.mp hc
      change (if isOrderComparison op then (rangeTerm left op right).map Prod.snd else none) = some τ at hterm
      split at hterm
      · obtain ⟨⟨c, τ'⟩, hrange, rfl⟩ := map_eq_some_iff.mp hterm
        obtain ⟨hread, hlit⟩ := operandPair_of_rangeTerm hrange
        exact hread ▸ hcast _ hpair hlit
      · cases hterm
    | _ => cases hterm

/-- The footer count of a detected predicate is the query's count on every table, if and only if its range, if it is one,
agrees with the comparisons of the query. -/
theorem negationCount_exact_iff (E : Engine) (hE : E.RendersText) (schema : Text → Option DataType) (filter : Expr)
    (col : Text) (predicate : DimCountPredicate) (t : DataType)
    (hdetect : detectNegationCount schema filter = some (col, predicate)) (ht : schema col = some t)
    (hty : WellTyped t filter) : CountsExact E t filter col predicate ↔ RangesExact t filter := by
  obtain ⟨⟨c, p⟩, hextract, hdetect⟩ := bind_eq_some_iff.mp hdetect
  dsimp only at hdetect
  split at hdetect
  · cases hdetect
  obtain ⟨t', ht', hdetect⟩ := bind_eq_some_iff.mp hdetect
  split at hdetect
  · next hkey =>
    cases hdetect
    obtain rfl : t' = t := some.inj (ht'.symm.trans ht)
    cases predicate with
    | set values negated =>
      have hnil := rangeTerms_of_set hextract
      constructor
      · intro _
        unfold RangesExact
        cases t' <;> simp [hnil]
      · intro _
        refine countsExact_iff.mpr fun row hrow => ?_
        exact (isTrue_of_set hE hextract hrow hty).symm
    | intRange lo hi =>
      exact countsExact_intRange_iff hE hkey (rangeReading_of_extract hextract) fun hb =>
        WellTyped.cast_of_boolean (hb ▸ hty)
  · cases hdetect

/-! ## Status codes -/

def renderingEngine : Engine where
  cast := fun t v => match t, renderKey v with
    | .text _, some key => .text key
    | _, _ => .null
  call := fun _ _ _ => .null
  arith := fun _ _ _ => .null
  negate := fun v => match v with
    | .int i => .int (-i)
    | _ => .null
  mixed := fun _ _ => none
  ilike := fun _ _ _ => false
  other := fun _ _ => .null

theorem renderingEngine_rendersText : renderingEngine.RendersText :=
  ⟨fun t v key hkey => by simp [renderingEngine, hkey], fun t => rfl, fun v => rfl⟩

def int64Literal (v : Int) (h : int64.Fits v) : Expr := .literal (.int ⟨.int64, v, h⟩)

def serverErrors : Expr :=
  .binary (.binary (.column "status".toList) .gtEq (int64Literal 500 (by decide))) .and
    (.binary (.column "status".toList) .ltEq (int64Literal 599 (by decide)))

def atLeastFive : Expr := .binary (.column "status".toList) .gtEq (int64Literal 5 (by decide))

/-- On an integer column the range is counted exactly. -/
theorem serverErrors_counted_exactly :
    CountsExact renderingEngine (.int .int64) serverErrors "status".toList (.intRange (some 500) (some 599)) := by
  have hterms : rangeTerms serverErrors = [⟨false, .gtEq, 500⟩, ⟨false, .ltEq, 599⟩] := by decide
  have hpairs : ∀ p ∈ comparedPairs serverErrors, (boolLiteral p.2).isSome = false := by
    intro p hp
    rcases mem_cons.mp hp with rfl | hp
    · rfl
    · rw [mem_singleton.mp hp]
      rfl
  refine (negationCount_exact_iff renderingEngine renderingEngine_rendersText (fun _ => some (.int .int64)) serverErrors
    "status".toList (.intRange (some 500) (some 599)) (.int .int64) (by decide) rfl fun p hp => ?_).mpr ⟨fun v _ => ?_, ?_⟩
  · simp [hpairs p hp]
  · rw [hterms]
    simp [RangeTerm.Holds]
  · exact fun hit => absurd hit (by decide)

/-- On a string column the query compares strings: `'10' >= '5'` is false, but the key is counted as the number ten. -/
theorem range_on_text_column_miscounts :
    detectNegationCount (fun _ => some (.text .utf8)) atLeastFive = some ("status".toList, .intRange (some 5) none) ∧
      negationCount (.intRange (some 5) none) (columnCounts "status".toList [fun _ => .text "10".toList]) = 1 ∧
      [fun _ => .text "10".toList].countP (fun row => decide (renderingEngine.IsTrue row atLeastFive)) = 0 ∧
      ¬ CountsExact renderingEngine (.text .utf8) atLeastFive "status".toList (.intRange (some 5) none) := by
  have hfooter : negationCount (.intRange (some 5) none) (columnCounts "status".toList [fun _ => .text "10".toList]) = 1 := by
    decide +kernel
  have hquery : [fun _ => Value.text "10".toList].countP (fun row => decide (renderingEngine.IsTrue row atLeastFive)) = 0 := by
    decide +kernel
  refine ⟨by decide, hfooter, hquery, fun hexact => ?_⟩
  have heq := hexact [fun _ => .text "10".toList] fun row hrow => by rw [mem_singleton.mp hrow]; trivial
  rw [hfooter, hquery] at heq
  cases heq

end LogLake
