import Mathlib

/-!
# Decimal notation

Reading an integer from its digits, with an optional sign and any number of leading zeros, and the
order of decimal strings against other strings.
-/

namespace Decimal

open List

/-- The canonical decimal rendering. -/
def render (i : Int) : List Char := (toString i).toList

variable (s : List Char)

def parseNat : Option Nat :=
  if s ≠ [] ∧ s.all Char.isDigit then some (Nat.ofDigitChars 10 s 0) else none

def parse : Option Int :=
  match s with
  | '+' :: digits => (parseNat digits).map fun n : Nat => (n : Int)
  | '-' :: digits => (parseNat digits).map fun n : Nat => -(n : Int)
  | digits => (parseNat digits).map fun n : Nat => (n : Int)

/-! ## Reading undoes rendering -/

variable (n : Nat)

/-- A natural number is rendered by its digits. -/
theorem render_ofNat : render n = Nat.toDigits 10 n := String.toList_ofList

/-- A negative number has a minus sign before its digits. -/
theorem render_negSucc : render (.negSucc n) = '-' :: Nat.toDigits 10 (n + 1) := by
  change ("-" ++ String.ofList (Nat.toDigits 10 (n + 1))).toList = _
  rw [String.toList_append, String.toList_ofList, String.toList_ofList]
  rfl

theorem isDigit_of_mem_toDigits {n : Nat} {c : Char} (h : c ∈ Nat.toDigits 10 n) : c.isDigit = true :=
  Nat.isDigit_of_mem_toDigits (by decide) (by decide) h

/-- Parsing the digits of a number gives it back. -/
theorem parseNat_toDigits : parseNat (Nat.toDigits 10 n) = some n := by
  have hdigits : (Nat.toDigits 10 n).all Char.isDigit = true := all_eq_true.mpr fun c hc => isDigit_of_mem_toDigits hc
  rw [parseNat, if_pos ⟨Nat.toDigits_ne_nil, hdigits⟩, Nat.ofDigitChars_toDigits (by decide) (by decide)]

/-- A leading zero does not change the number. -/
theorem parseNat_zero_cons_toDigits : parseNat ('0' :: Nat.toDigits 10 n) = some n := by
  have hdigits : ('0' :: Nat.toDigits 10 n).all Char.isDigit = true := by
    rw [all_cons, all_eq_true.mpr fun c hc => isDigit_of_mem_toDigits hc]
    rfl
  rw [parseNat, if_pos ⟨cons_ne_nil _ _, hdigits⟩]
  exact congrArg some (Nat.ofDigitChars_toDigits (by decide) (by decide))

/-- A text that starts with a digit is parsed as a natural number. -/
theorem parse_of_digit {c : Char} {s : List Char} (hc : c.isDigit = true) :
    parse (c :: s) = (parseNat (c :: s)).map fun n : Nat => (n : Int) := by
  unfold parse
  split
  · next heq =>
    obtain ⟨rfl, -⟩ := List.cons.inj heq
    exact absurd hc (by decide)
  · next heq =>
    obtain ⟨rfl, -⟩ := List.cons.inj heq
    exact absurd hc (by decide)
  · rfl

/-- A natural number is rendered with a digit first. -/
theorem render_ofNat_cons (n : Nat) : ∃ c s, render (Int.ofNat n) = c :: s ∧ Nat.toDigits 10 n = c :: s ∧ c.isDigit = true := by
  obtain ⟨c, s, hcs⟩ := exists_cons_of_ne_nil (Nat.toDigits_ne_nil (n := n) (b := 10))
  exact ⟨c, s, (render_ofNat n).trans hcs, hcs, isDigit_of_mem_toDigits (hcs ▸ mem_cons_self)⟩

variable (i : Int)

/-- Parsing what was rendered gives the number back. -/
theorem parse_render : parse (render i) = some i := by
  cases i with
  | ofNat n =>
    obtain ⟨c, s, hrender, hcs, hc⟩ := render_ofNat_cons n
    rw [hrender, parse_of_digit hc, ← hcs, parseNat_toDigits]
    rfl
  | negSucc n =>
    rw [render_negSucc, parse, parseNat_toDigits]
    rfl

/-- Different numbers are rendered differently. -/
theorem render_injective {i j : Int} (h : render i = render j) : i = j := by
  have hi := parse_render i
  rw [h, parse_render, Option.some.injEq] at hi
  exact hi.symm

/-! ## The order of decimal strings -/

/-- A positive number does not start with a zero. -/
theorem head_toDigits_pos {n : Nat} (hn : 0 < n) : ∃ c s, Nat.toDigits 10 n = c :: s ∧ '0' < c := by
  induction n using Nat.strongRecOn with
  | ind n ih =>
    by_cases hlt : n < 10
    · refine ⟨n.digitChar, [], Nat.toDigits_of_lt_base hlt, ?_⟩
      have hcases : ∀ k : Fin 10, 0 < k.val → '0' < k.val.digitChar := by decide
      exact hcases ⟨n, hlt⟩ hn
    · obtain ⟨c, s, hcs, hc⟩ := ih (n / 10) (Nat.div_lt_self hn (by decide)) (by omega)
      refine ⟨c, s ++ [(n % 10).digitChar], ?_, hc⟩
      rw [Nat.toDigits_of_base_le (by decide) (by omega), hcs, cons_append]

/-- What is rendered starts with a minus sign or a digit. -/
theorem exists_render_cons : ∃ c s, render i = c :: s ∧ '+' < c := by
  cases i with
  | ofNat n =>
    obtain ⟨c, s, hrender, _, hc⟩ := render_ofNat_cons n
    refine ⟨c, s, hrender, ?_⟩
    rw [Char.isDigit, Bool.and_eq_true, decide_eq_true_eq] at hc
    exact lt_of_lt_of_le (by decide : '+' < '0') hc.1
  | negSucc n => exact ⟨'-', _, render_negSucc n, by decide⟩

/-- A text that starts with a plus sign sorts before every number. -/
theorem plus_cons_lt_render : '+' :: s < render i := by
  obtain ⟨c, s', hcs, hc⟩ := exists_render_cons i
  rw [hcs]
  exact cons_lt_cons_iff.mpr (Or.inl hc)

/-- The empty text sorts before every number. -/
theorem nil_lt_render : [] < render i := by
  obtain ⟨c, s', hcs, -⟩ := exists_render_cons i
  rw [hcs]
  exact nil_lt_cons _ _

/-- A text that starts with `-0` sorts before every negative number. -/
theorem minus_zero_cons_lt_render {i : Int} (hi : i < 0) : '-' :: '0' :: s < render i := by
  cases i with
  | ofNat n => exact absurd hi (by simp)
  | negSucc n =>
    obtain ⟨c, s', hcs, hc⟩ := head_toDigits_pos (Nat.succ_pos n)
    rw [render_negSucc, hcs]
    exact cons_lt_cons_iff.mpr (Or.inr ⟨rfl, cons_lt_cons_iff.mpr (Or.inl hc)⟩)

end Decimal
