import LogLake.Lemmas.Index

/-! # Rows the index selects for a substring -/

namespace LogLake

open InvertedIndex (fromRows)

variable (rows : List Text)

/-- The selection for `s` keeps every row whose lower-cased text holds the normalized substring. -/
def SelectionKeepsMatches (s norm : Text) : Prop :=
  ∃ acc, (fromRows rows).rowsContaining s = some acc ∧
    ∀ i raw, rows[i]? = some raw → norm <:+: toAsciiLowercase raw → i ∈ acc.map UInt32.toNat

/-- Row `j` posts `norm` within the cap: one of the first `maxTokensPerRow` long pieces of its text holds it. -/
def HeldWithinCap (norm : Text) (j : Nat) : Prop :=
  ∃ raw, rows[j]? = some raw ∧ ∃ piece ∈ keptPieces raw, norm <:+: toAsciiLowercase piece

theorem mem_rowsContaining_iff_heldWithinCap {rows : List Text} {s norm : Text} {acc : List UInt32} {i : Nat}
    (hnorm : normalizeQueryTerm s = some norm) (hacc : (fromRows rows).rowsContaining s = some acc) :
    i ∈ acc.map UInt32.toNat ↔ ∃ j, j % 2 ^ 32 = i ∧ HeldWithinCap rows norm j := by
  simp only [List.mem_map, mem_rowsContaining_fromRows hnorm hacc, defaultTokenize_eq, exists_exists_and_eq_and]
  constructor
  · rintro ⟨r, ⟨j, raw, hj, hpiece, rfl⟩, rfl⟩
    exact ⟨j, by simp, raw, hj, hpiece⟩
  · rintro ⟨j, rfl, raw, hj, hpiece⟩
    exact ⟨UInt32.ofNat j, ⟨j, raw, hj, hpiece, rfl⟩, by simp⟩

/-- For every list of rows and every indexable substring, the index keeps all matching rows exactly when every
matching row `i` has an ordinal below `2 ^ 32` shared, modulo `2 ^ 32`, with a row that holds the substring in one
of its first sixty-four pieces of at least three letters or digits. -/
theorem rowsContaining_keepsMatches_iff (s norm : Text) (hnorm : normalizeQueryTerm s = some norm) :
    SelectionKeepsMatches rows s norm ↔
      ∀ i raw, rows[i]? = some raw → norm <:+: toAsciiLowercase raw →
        ∃ j, j % 2 ^ 32 = i ∧ HeldWithinCap rows norm j := by
  have hsome : ∃ acc, (fromRows rows).rowsContaining s = some acc := by
    simp [InvertedIndex.rowsContaining, hnorm]
  constructor
  · rintro ⟨acc, hacc, hkeep⟩ i raw hi hin
    exact (mem_rowsContaining_iff_heldWithinCap hnorm hacc).mp (hkeep i raw hi hin)
  · intro h
    obtain ⟨acc, hacc⟩ := hsome
    exact ⟨acc, hacc, fun i raw hi hin => (mem_rowsContaining_iff_heldWithinCap hnorm hacc).mpr (h i raw hi hin)⟩

/-- The equivalence at a row with two tokens, which the index keeps. -/
theorem rowsContaining_keepsMatches_short : SelectionKeepsMatches ["GET /index".toList] "ndex ".toList "ndex".toList :=
  (rowsContaining_keepsMatches_iff ["GET /index".toList] "ndex ".toList "ndex".toList (by decide)).mpr (by
    rintro (_ | i) raw hi -
    · exact ⟨0, rfl, "GET /index".toList, rfl, "index".toList, by decide, by decide⟩
    · simp at hi)

def overCapRow : Text := (List.replicate 64 "aaa ".toList).flatten ++ "zzz".toList

/-- The row's text holds `zzz`, and the index built from it returns no row for `zzz`. -/
theorem rowsContaining_misses_token_after_cap :
    normalizeQueryTerm "zzz".toList = some "zzz".toList ∧
      "zzz".toList <:+: toAsciiLowercase overCapRow ∧
      (fromRows [overCapRow]).rowsContaining "zzz".toList = some [] ∧
      ¬ SelectionKeepsMatches [overCapRow] "zzz".toList "zzz".toList := by
  have hin : "zzz".toList <:+: toAsciiLowercase overCapRow := by decide +kernel
  have hnone : (fromRows [overCapRow]).rowsContaining "zzz".toList = some [] := by decide +kernel
  refine ⟨by decide, hin, hnone, ?_⟩
  rintro ⟨acc, hacc, hkeep⟩
  rw [hnone, Option.some.injEq] at hacc
  have := hkeep 0 overCapRow rfl hin
  rw [← hacc] at this
  cases this

/-! ## Runs of rows -/

theorem rowSelectionRuns_tile (selected : List UInt32) (nRows : UInt32) (hsorted : selected.Pairwise (· < ·))
    (hbelow : ∀ r ∈ selected, r < nRows) : Tiles (rowSelectionRuns selected nRows) nRows.toNat selected := by
  obtain ⟨htiles, hnext⟩ := tiles_foldl hsorted hbelow rfl
  have hcursor := hnext nRows hbelow
  unfold rowSelectionRuns
  dsimp only
  rw [if_pos hcursor]
  exact htiles.skip hcursor

/-- A gap, two neighbouring rows and a trailing skip. -/
theorem two_rows_selected : Tiles [(false, 1), (true, 2), (false, 1)] 4 [1, 2] :=
  rowSelectionRuns_tile [1, 2] 4 (by simp) (by simp)

end LogLake
