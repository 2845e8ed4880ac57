import LogLake.Lib.Separated

/-!
# Text

Log text is a sequence of characters.
-/

namespace LogLake

open List

/-- A string of the source, as its characters. -/
abbrev Text := List Char

instance Text.lawfulBEq : LawfulBEq Text := List.instLawfulBEq

variable (t : Text)

/-- `str::to_ascii_lowercase`: only the letters A to Z change. -/
def toAsciiLowercase : Text := t.map Char.toLower

variable (c : Char)

/-- `char::is_whitespace`, the Unicode White_Space property. -/
def isUnicodeWhitespace : Bool :=
  (9 ≤ c.toNat && c.toNat ≤ 13) || c.toNat == 0x20 || c.toNat == 0x85 || c.toNat == 0xA0 || c.toNat == 0x1680 ||
    (0x2000 ≤ c.toNat && c.toNat ≤ 0x200A) || c.toNat == 0x2028 || c.toNat == 0x2029 || c.toNat == 0x202F ||
    c.toNat == 0x205F || c.toNat == 0x3000

def trim : Text := ((t.dropWhile isUnicodeWhitespace).reverse.dropWhile isUnicodeWhitespace).reverse

def stripPrefix (p t : Text) : Option Text := if p.isPrefixOf t then some (t.drop p.length) else none

def stripSuffix (s t : Text) : Option Text := if s.isSuffixOf t then some (t.take (t.length - s.length)) else none

def containsText (t s : Text) : Bool := decide (s <:+: t)

def asBytes : List UInt8 := t.flatMap String.utf8EncodeChar

@[simp] theorem toAsciiLowercase_nil : toAsciiLowercase [] = [] := rfl

@[simp] theorem toAsciiLowercase_cons (t : Text) : toAsciiLowercase (c :: t) = c.toLower :: toAsciiLowercase t := rfl

@[simp] theorem toAsciiLowercase_append (s t : Text) :
    toAsciiLowercase (s ++ t) = toAsciiLowercase s ++ toAsciiLowercase t := map_append

@[simp] theorem length_toAsciiLowercase : (toAsciiLowercase t).length = t.length := length_map ..

def IsCapital : Prop := 'A'.val ≤ c.val ∧ c.val ≤ 'Z'.val

variable {c : Char}

theorem isCapital_iff : IsCapital c ↔ 65 ≤ c.toNat ∧ c.toNat ≤ 90 :=
  and_congr UInt32.le_iff_toNat_le UInt32.le_iff_toNat_le

theorem toNat_toLower_of_isCapital (h : IsCapital c) : c.toLower.toNat = c.toNat + 32 := by
  have hval : c.toLower.val = c.val + ('a'.val - 'A'.val) := congrArg Char.val (dif_pos h)
  have hle := (isCapital_iff.mp h).2
  have hsum : (c.val + ('a'.val - 'A'.val)).toNat = (c.val.toNat + 32) % 2 ^ 32 := UInt32.toNat_add ..
  change c.toLower.val.toNat = _
  rw [hval, hsum]
  change c.val.toNat ≤ 90 at hle
  change _ = c.val.toNat + 32
  omega

theorem toLower_of_not_isCapital (h : ¬ IsCapital c) : c.toLower = c := dif_neg h

theorem isAlphanum_iff : c.isAlphanum = true ↔
    (65 ≤ c.toNat ∧ c.toNat ≤ 90) ∨ (97 ≤ c.toNat ∧ c.toNat ≤ 122) ∨ (48 ≤ c.toNat ∧ c.toNat ≤ 57) := by
  change ((decide (c.val ≥ 65 ∧ c.val ≤ 90) || decide (c.val ≥ 97) && decide (c.val ≤ 122)) ||
    decide (c.val ≥ 48) && decide (c.val ≤ 57)) = true ↔ _
  simp only [Bool.or_eq_true, Bool.and_eq_true, decide_eq_true_eq, ge_iff_le, UInt32.le_iff_toNat_le, or_assoc]
  rfl

/-- Lower case keeps letters and digits. -/
theorem isAlphanum_toLower (h : c.isAlphanum = true) : c.toLower.isAlphanum = true := by
  by_cases hc : IsCapital c
  · rw [isAlphanum_iff, toNat_toLower_of_isCapital hc]
    have := isCapital_iff.mp hc
    omega
  · rwa [toLower_of_not_isCapital hc]

theorem toLower_toLower (c : Char) : c.toLower.toLower = c.toLower := by
  apply toLower_of_not_isCapital
  by_cases hc : IsCapital c
  · rw [isCapital_iff, toNat_toLower_of_isCapital hc]
    have := isCapital_iff.mp hc
    omega
  · rwa [toLower_of_not_isCapital hc]

@[simp] theorem toAsciiLowercase_idem (t : Text) : toAsciiLowercase (toAsciiLowercase t) = toAsciiLowercase t := by
  rw [toAsciiLowercase, toAsciiLowercase, map_map]
  exact map_congr_left fun c _ => toLower_toLower c

/-- Lower case keeps contiguous parts. -/
theorem isInfix_toAsciiLowercase {s t : Text} (h : s <:+: t) : toAsciiLowercase s <:+: toAsciiLowercase t :=
  h.map Char.toLower

theorem mem_stripPrefix {p t r : Text} : stripPrefix p t = some r ↔ t = p ++ r := by
  unfold stripPrefix
  split
  · next h =>
    obtain ⟨r', rfl⟩ := isPrefixOf_iff_prefix.mp h
    simp [eq_comm]
  · next h =>
    simp only [reduceCtorEq, false_iff]
    rintro rfl
    exact h ( isPrefixOf_iff_prefix.mpr (prefix_append p r))

theorem mem_stripSuffix {s t r : Text} : stripSuffix s t = some r ↔ t = r ++ s := by
  unfold stripSuffix
  split
  · next h =>
    obtain ⟨r', rfl⟩ := isSuffixOf_iff_suffix.mp h
    simp [eq_comm]
  · next h =>
    simp only [reduceCtorEq, false_iff]
    rintro rfl
    exact h (isSuffixOf_iff_suffix.mpr (suffix_append r s))

@[simp] theorem containsText_iff {t s : Text} : containsText t s = true ↔ s <:+: t := decide_eq_true_iff

end LogLake
