import LogLake.Lib.Ordered
import LogLake.Sql.Eval

/-!
# Facts about timestamps and comparison
-/

namespace LogLake

open TimeUnit

/-! ## Units -/

theorem TimeUnit.nanos_pos (u : TimeUnit) : 0 < u.nanos := by
  cases u <;> decide

theorem TimeUnit.nanos_injective {u u' : TimeUnit} (h : u.nanos = u'.nanos) : u = u' := by
  cases u <;> cases u' <;> first | rfl | exact absurd h (by decide)

@[simp] theorem TimeUnit.convert_self (u : TimeUnit) (v : Int) : u.convert u v = v := by
  unfold convert
  rw [if_pos le_rfl, Int.ediv_self (nanos_pos u).ne', mul_one]

theorem TimeUnit.convert_eq_tdiv {u u' : TimeUnit} (h : u.nanos ≤ u'.nanos) (v : Int) :
    u.convert u' v = (v * u.nanos).tdiv u'.nanos := by
  rcases h.eq_or_lt with heq | hlt
  · obtain rfl := nanos_injective heq
    rw [convert_self, Int.mul_tdiv_cancel _ (nanos_pos u).ne']
  · have hdvd : u'.nanos = u.nanos * (u'.nanos / u.nanos) := by
      cases u <;> cases u' <;> first | rfl | exact absurd hlt (by decide)
    unfold convert
    rw [if_neg hlt.not_ge]
    nth_rewrite 2 [hdvd]
    rw [mul_comm v, Int.mul_tdiv_mul_of_pos _ _ (nanos_pos u)]

/-- A finer unit expresses the same instant. -/
theorem TimeUnit.convert_mul_nanos {u u' : TimeUnit} (h : u'.nanos ≤ u.nanos) (v : Int) :
    u.convert u' v * u'.nanos = v * u.nanos := by
  have hratio : u.nanos / u'.nanos * u'.nanos = u.nanos := by
    cases u <;> cases u' <;> first | rfl | exact absurd h (by decide)
  rw [convert, if_pos h, mul_assoc, hratio]

/-- Units that are not coarser than the first one lose nothing on the way. -/
theorem TimeUnit.convert_convert {u u' u'' : TimeUnit} (h' : u'.nanos ≤ u.nanos) (h'' : u''.nanos ≤ u.nanos) (v : Int) :
    u'.convert u'' (u.convert u' v) = u.convert u'' v := by
  rcases le_total u''.nanos u'.nanos with hle | hle
  · apply mul_right_cancel₀ (nanos_pos u'').ne'
    rw [convert_mul_nanos hle, convert_mul_nanos h', convert_mul_nanos h'']
  · rw [convert_eq_tdiv hle, convert_mul_nanos h', ← convert_mul_nanos h'', Int.mul_tdiv_cancel _ (nanos_pos u'').ne']

theorem TimeUnit.fits_convert {u u' : TimeUnit} (h : u'.nanos ≤ u.nanos) {v : Int}
    (hfits : IntType.int64.Fits (v * u.nanos)) : IntType.int64.Fits (u.convert u' v) := by
  rw [← convert_mul_nanos h] at hfits
  have hone : 1 ≤ u'.nanos := nanos_pos u'
  obtain ⟨hmin, hmax⟩ := hfits
  rcases le_total 0 (u.convert u' v) with hpos | hneg
  · exact ⟨le_trans (by decide) hpos, (le_mul_of_one_le_right hpos hone).trans hmax⟩
  · exact ⟨hmin.trans (mul_le_of_one_le_right hneg hone), hneg.trans (by decide)⟩

theorem TimeUnit.nanos_coarser (u u' : TimeUnit) : (u.coarser u').nanos = max u.nanos u'.nanos := by
  unfold coarser
  split
  case isTrue h => exact (max_eq_right h.le).symm
  case isFalse h => exact (max_eq_left (not_lt.mp h)).symm

theorem fits_tdiv_mul {t : Int} (h : IntType.int64.Fits t) (u : TimeUnit) :
    IntType.int64.Fits (t.tdiv u.nanos * u.nanos) := by
  obtain ⟨hmin, hmax⟩ := h
  rw [Int.tdiv_eq_ediv, Int.sign_eq_one_of_pos (nanos_pos u)]
  unfold IntType.Fits
  unfold IntType.min IntType.max at *
  -- only a negative instant between two values is rounded up
  by_cases hround : 0 ≤ t ∨ u.nanos ∣ t
  · rw [if_pos hround]
    cases u <;> dsimp only [nanos] at * <;> omega
  · rw [if_neg hround]
    cases u <;> dsimp only [nanos] at * <;> omega

/-! ## Comparison -/

section

variable {E : Engine}

theorem Engine.compare_null_right (a : Value) : E.compare a .null = none := by
  cases a <;> rfl

theorem Engine.isTrue_and {row : Row} {l r : Expr} : E.IsTrue row (.binary l .and r) ↔ E.IsTrue row l ∧ E.IsTrue row r := by
  unfold Engine.IsTrue
  rw [Engine.eval, Engine.binary, Value.truth_ofTruth, Kleene.and_eq_true]

end

end LogLake
