import Mathlib

/-!
# Buckets and windows on the integers

The line is cut into buckets of one width from an origin, by Euclidean division. In 64-bit arithmetic sums and products wrap
around, and some operations stop at the ends of the range instead.
-/

/-! ## The 64-bit range -/

/-- The integer is a 64-bit one. -/
def InI64 (x : Int) : Prop := -2 ^ 63 ≤ x ∧ x < 2 ^ 63

instance (x : Int) : Decidable (InI64 x) := inferInstanceAs (Decidable (_ ∧ _))

def wrap64 (x : Int) : Int := x.bmod (2 ^ 64)

def saturate64 (x : Int) : Int := max (-2 ^ 63) (min (2 ^ 63 - 1) x)

/-- Within the range nothing wraps. -/
theorem wrap64_eq {x : Int} (h : InI64 x) : wrap64 x = x :=
  Int.bmod_eq_of_le (by have := h.1; omega) (by have := h.2; omega)

/-- Within the range nothing saturates. -/
theorem saturate64_eq {x : Int} (h : InI64 x) : saturate64 x = x := by
  obtain ⟨hlo, hhi⟩ := h
  unfold saturate64
  omega

namespace Bucket

/-- The start of the bucket that holds `t`. -/
def start (origin width t : Int) : Int := origin + (t - origin) / width * width

variable {origin width t u s : Int}

/-- A bucket starts at or before its instants. -/
theorem start_le (hwidth : 0 < width) : start origin width t ≤ t := by
  have h := Int.ediv_mul_le (t - origin) hwidth.ne'
  unfold start
  omega

/-- A bucket ends after its instants. -/
theorem lt_start_add (hwidth : 0 < width) : t < start origin width t + width := by
  have h := Int.lt_ediv_add_one_mul_self (t - origin) hwidth
  unfold start
  rw [Int.add_mul, Int.one_mul] at h
  omega

/-- Buckets start at multiples of the width from the origin. -/
theorem dvd_start_sub_origin (origin width t : Int) : width ∣ start origin width t - origin := by
  unfold start
  exact ⟨(t - origin) / width, by rw [Int.mul_comm width]; omega⟩

section

variable (hwidth : 0 < width)
include hwidth

/-- The start of a bucket is the one multiple of the width that is less than a width before. -/
theorem start_eq (hdvd : width ∣ s - origin) (hle : s ≤ t) (hlt : t < s + width) : start origin width t = s := by
  obtain ⟨k, hk⟩ := hdvd
  have hdiv : (t - origin) / width = k := by
    have hsplit : t - origin = (t - s) + width * k := by omega
    rw [hsplit, Int.add_mul_ediv_left _ _ hwidth.ne', Int.ediv_eq_zero_of_lt (by omega) (by omega), Int.zero_add]
  unfold start
  rw [hdiv, Int.mul_comm k]
  omega

/-- Later instants have later buckets. -/
theorem start_mono (h : t ≤ u) : start origin width t ≤ start origin width u := by
  unfold start
  have hdiv := Int.ediv_le_ediv hwidth (show t - origin ≤ u - origin by omega)
  have hmul := Int.mul_le_mul_of_nonneg_right hdiv hwidth.le
  omega

/-- Between two instants of a bucket there is only that bucket. -/
theorem start_eq_of_between {v : Int} (hsame : start origin width t = start origin width v)
    (hle : t ≤ u) (hle' : u ≤ v) : start origin width u = start origin width t :=
  le_antisymm (hsame ▸ start_mono hwidth hle') (start_mono hwidth hle)

/-- A multiple of the width is before the bucket exactly when it is before the instant. -/
theorem le_start_iff (hdvd : width ∣ s - origin) : s ≤ start origin width t ↔ s ≤ t := by
  constructor
  · exact fun h => h.trans (start_le hwidth)
  · intro h
    rw [← start_eq hwidth hdvd le_rfl (by omega)]
    exact start_mono hwidth h

end

/-- A bucket of a finer grid has one bucket of the coarser grid. -/
theorem start_start {fine fineOrigin : Int} (hfine : 0 < fine) (hwidth : 0 < width) (hdvd : fine ∣ width)
    (horigin : fine ∣ origin - fineOrigin) : start origin width (start fineOrigin fine t) = start origin width t := by
  have hcoarse := dvd_start_sub_origin origin width t
  refine start_eq hwidth hcoarse ?_ (lt_of_le_of_lt (start_le hfine) (lt_start_add hwidth))
  -- both starts are on the fine grid, so the coarse one is not within a fine width above the fine one
  have hgrid : fine ∣ start origin width t - start fineOrigin fine t := by
    have hsum := Int.dvd_sub (Int.dvd_add (hdvd.trans hcoarse) horigin) (dvd_start_sub_origin fineOrigin fine t)
    have heq : start origin width t - origin + (origin - fineOrigin) - (start fineOrigin fine t - fineOrigin) =
        start origin width t - start fineOrigin fine t := by omega
    rwa [heq] at hsum
  obtain ⟨k, hk⟩ := hgrid
  have hlt : fine * k < fine := by
    have hle : start origin width t ≤ t := start_le hwidth
    have hup : t < start fineOrigin fine t + fine := lt_start_add hfine
    omega
  have hk0 : k < 1 := by
    by_contra hnot
    have hmul := Int.mul_le_mul_of_nonneg_left (show (1 : Int) ≤ k by omega) hfine.le
    omega
  have hneg := Int.mul_le_mul_of_nonneg_left (show k ≤ 0 by omega) hfine.le
  omega

/-! ## In 64 bits -/

/-- The start of the bucket, as 64-bit arithmetic computes it. -/
def start64 (origin width t : Int) : Int := wrap64 (origin + wrap64 (wrap64 (t - origin) / width * width))

/-- Nothing leaves the range when the bucket of `t` is computed, and its end is in the range. -/
structure Fits (origin width t : Int) : Prop where
  time : InI64 t
  offset : InI64 (t - origin)
  floor : InI64 ((t - origin) / width * width)
  begins : InI64 (start origin width t)
  ends : InI64 (start origin width t + width)

instance (origin width t : Int) : Decidable (Fits origin width t) :=
  decidable_of_iff (InI64 t ∧ InI64 (t - origin) ∧ InI64 ((t - origin) / width * width) ∧ InI64 (start origin width t) ∧
    InI64 (start origin width t + width)) ⟨fun ⟨a, b, c, d, e⟩ => ⟨a, b, c, d, e⟩, fun ⟨a, b, c, d, e⟩ => ⟨a, b, c, d, e⟩⟩

/-- Within the range the 64-bit computation gives the start of the bucket. -/
theorem Fits.start64_eq (h : Fits origin width t) : start64 origin width t = start origin width t := by
  rw [start64, wrap64_eq h.offset, wrap64_eq h.floor]
  exact wrap64_eq h.begins

/-- A bucket fits for every point of it up to one it fits for. -/
theorem Fits.of_le (h : Fits origin width t) (hstart : start origin width u = start origin width t)
    (hlow : start origin width t ≤ u) (hle : u ≤ t) : Fits origin width u := by
  obtain ⟨⟨-, htime⟩, ⟨-, hoffset⟩, hfloor, hbegins, hends⟩ := h
  have hsame : (u - origin) / width * width = (t - origin) / width * width := by
    unfold start at hstart
    omega
  refine ⟨⟨hbegins.1.trans hlow, by omega⟩, ⟨?_, by omega⟩, hsame ▸ hfloor, hstart ▸ hbegins, hstart ▸ hends⟩
  have hfloor' := hfloor.1
  unfold start at hlow
  omega

/-- A bucket fits for the start of a finer one in it. -/
theorem Fits.fine {fine : Int} (hfine : 0 < fine) (hwidth : 0 < width) (hdvd : fine ∣ width) (horigin : fine ∣ origin)
    (h : Fits origin width t) : Fits origin width (start 0 fine t) := by
  have hsame : start origin width (start 0 fine t) = start origin width t :=
    start_start hfine hwidth hdvd (by simpa using horigin)
  exact h.of_le hsame (hsame ▸ start_le hwidth) (start_le hfine)

end Bucket

/-- A half-open window, open on a side without a bound. -/
structure Window where
  lo : Option Int
  hi : Option Int
  deriving DecidableEq

namespace Window

variable (w : Window)

def Holds (t : Int) : Prop := (∀ lo ∈ w.lo, lo ≤ t) ∧ ∀ hi ∈ w.hi, t < hi

variable (a b : Int)

/-- The half-open range from `a` to `b` lies within the window. -/
def Covers : Prop := (∀ lo ∈ w.lo, lo ≤ a) ∧ ∀ hi ∈ w.hi, b ≤ hi

def Meets : Prop := (∀ lo ∈ w.lo, lo < b) ∧ ∀ hi ∈ w.hi, a < hi

instance decidableHolds (t : Int) : Decidable (w.Holds t) := inferInstanceAs (Decidable (_ ∧ _))

instance decidableCovers : Decidable (w.Covers a b) := inferInstanceAs (Decidable (_ ∧ _))

instance decidableMeets : Decidable (w.Meets a b) := inferInstanceAs (Decidable (_ ∧ _))

variable {w a b} {t : Int}

/-- A window that covers an interval holds its instants. -/
theorem Covers.holds (h : w.Covers a b) (ha : a ≤ t) (hb : t < b) : w.Holds t :=
  ⟨fun lo hlo => le_trans (h.1 lo hlo) ha, fun hi hhi => lt_of_lt_of_le hb (h.2 hi hhi)⟩

/-- A window that does not meet an interval holds none of its instants. -/
theorem not_holds_of_not_meets (h : ¬w.Meets a b) (ha : a ≤ t) (hb : t < b) : ¬w.Holds t :=
  fun hw => h ⟨fun lo hlo => lt_of_le_of_lt (hw.1 lo hlo) hb, fun hi hhi => lt_of_le_of_lt ha (hw.2 hi hhi)⟩

end Window
