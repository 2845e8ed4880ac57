import LogLake.Lemmas.Bloom
import LogLake.MatchUdf

/-! # What a token says about the text it comes from -/

namespace LogLake

open List Option

/-! ## Stems -/

variable {t : Text}

theorem isPrefix_of_stripSuffix {s r : Text} (h : stripSuffix s t = some r) : r <+: t := by
  rw [mem_stripSuffix.mp h]
  exact prefix_append r s

variable {token stem : Text}

theorem isPrefix_of_guarded {suffix : Text} {p : Text → Prop} [DecidablePred p]
    (h : ((stripSuffix suffix token).bind fun r => if p r then some r else none) = some stem) : stem <+: token := by
  obtain ⟨r, hr, h⟩ := bind_eq_some_iff.mp h
  split at h
  · exact some.inj h ▸ isPrefix_of_stripSuffix hr
  · cases h

theorem stripEnding_isPrefix (token : Text) : stripEnding token <+: token := by
  unfold stripEnding
  cases hing : stripSuffixWithGuard token "ing".toList 4 with
  | some r => exact isPrefix_of_guarded hing
  | none => cases hed : stripSuffixWithGuard token "ed".toList 3 with
    | some r => exact isPrefix_of_guarded hed
    | none => cases hes : stripPluralEs token with
      | some r => exact isPrefix_of_guarded hes
      | none => cases hs : stripPluralS token with
        | some r => exact isPrefix_of_guarded hs
        | none => exact prefix_rfl

/-- A stem is a prefix of its token. -/
theorem isPrefix_of_liteStem (h : liteStem token = some stem) : stem <+: token ∧ minTokenLen ≤ stem.length := by
  unfold liteStem at h
  split at h
  · next hlen =>
    rw [some.injEq] at h
    exact h ▸ ⟨stripEnding_isPrefix token, hlen⟩
  · cases h

/-! ## Tokens lie in the text -/

variable {tokenizer : Tokenizer} {raw : Text}

/-- Every tokenizer gives parts of the lowercase text. -/
theorem infix_of_mem_tokenize (h : token ∈ tokenizer.tokenize raw) : token <:+: toAsciiLowercase raw := by
  cases tokenizer with
  | default => exact infix_of_mem_defaultTokenize h
  | raw => rw [mem_singleton.mp h]
  | stem =>
    obtain ⟨t, ht, hstem⟩ := mem_filterMap.mp h
    exact (isPrefix_of_liteStem hstem).1.isInfix.trans (infix_of_mem_defaultTokenize ht)

theorem trigrams_subset_of_mem_tokenize {part : Text}
    (h : token ∈ tokenizer.tokenize raw) (hpart : part <:+: token) : trigrams part ⊆ trigrams raw := by
  apply trigrams_subset
  have hin := isInfix_toAsciiLowercase (hpart.trans (infix_of_mem_tokenize h))
  rwa [toAsciiLowercase_idem] at hin

/-! ## A text that starts with a given token -/

/-- A text of lower-case letters and digits only. -/
def IsTokenText (t : Text) : Prop := ∀ c ∈ t, c.isAlphanum = true ∧ c.toLower = c

theorem isTokenText_of_mem_defaultTokenize (h : token ∈ defaultTokenize raw) : IsTokenText token := by
  rw [defaultTokenize_eq] at h
  obtain ⟨q, hq, rfl⟩ := mem_map.mp h
  intro c hc
  obtain ⟨d, hd, rfl⟩ := mem_map.mp hc
  have hsep := not_sep_of_mem_splitOnP (mem_keptPieces hq).1 d hd
  exact ⟨isAlphanum_toLower (by simpa [isSeparator] using hsep), toLower_toLower d⟩

theorem isTokenText_of_mem_tokenize (ht : tokenizer ≠ .raw)
    (h : token ∈ tokenizer.tokenize raw) : IsTokenText token ∧ minTokenLen ≤ token.length := by
  cases tokenizer with
  | default => exact ⟨isTokenText_of_mem_defaultTokenize h, length_of_mem_defaultTokenize h⟩
  | raw => exact absurd rfl ht
  | stem =>
    obtain ⟨t, htok, hstem⟩ := mem_filterMap.mp h
    have hpre := isPrefix_of_liteStem hstem
    exact ⟨fun c hc => isTokenText_of_mem_defaultTokenize htok c (hpre.1.subset hc), hpre.2⟩

theorem stripSuffix_eq_none_of_getLast {s : Text} {c d : Char} (h : c ≠ d) : stripSuffix (s ++ [c]) (t ++ [d]) = none := by
  cases hr : stripSuffix (s ++ [c]) (t ++ [d]) with
  | none => rfl
  | some r =>
    have hlast := congrArg List.getLast? (mem_stripSuffix.mp hr)
    rw [← append_assoc, List.getLast?_concat, List.getLast?_concat, some.injEq] at hlast
    exact absurd hlast.symm h

theorem stripEnding_concat_digit {d : Char} (hd : d = '0' ∨ d = '1') : stripEnding (t ++ [d]) = t ++ [d] := by
  have hg : 'g' ≠ d := by rcases hd with rfl | rfl <;> decide
  have hdd : 'd' ≠ d := by rcases hd with rfl | rfl <;> decide
  have hs : 's' ≠ d := by rcases hd with rfl | rfl <;> decide
  have hing : stripSuffix "ing".toList (t ++ [d]) = none := stripSuffix_eq_none_of_getLast (s := "in".toList) hg
  have hed : stripSuffix "ed".toList (t ++ [d]) = none := stripSuffix_eq_none_of_getLast (s := "e".toList) hdd
  have hes : stripSuffix "es".toList (t ++ [d]) = none := stripSuffix_eq_none_of_getLast (s := "e".toList) hs
  have hplural : stripSuffix "s".toList (t ++ [d]) = none := stripSuffix_eq_none_of_getLast (s := []) hs
  unfold stripEnding stripSuffixWithGuard stripPluralEs stripPluralS
  rw [hing, hed, hes, hplural]
  rfl

theorem defaultTokenize_of_isTokenText (ht : IsTokenText t) (hlen : minTokenLen ≤ t.length) : defaultTokenize t = [t] := by
  have hpieces : pieces t = [t] := by
    apply splitOnP_eq_singleton
    intro c hc
    simp [isSeparator, (ht c hc).1]
  have hlower : toAsciiLowercase t = t := (map_congr_left fun c hc => (ht c hc).2).trans (map_id t)
  rw [defaultTokenize_eq, keptPieces, hpieces, filter_cons_of_pos (by simpa using hlen), filter_nil]
  simp [maxTokensPerRow, hlower]

theorem tokenize_concat_digit {d : Char} (hr : tokenizer ≠ .raw)
    (ht : IsTokenText token) (hlen : minTokenLen ≤ token.length) (hd : d = '0' ∨ d = '1') :
    tokenizer.tokenize (token ++ [d]) = [token ++ [d]] := by
  have hd' : d.isAlphanum = true ∧ d.toLower = d := by rcases hd with rfl | rfl <;> decide
  have htext : IsTokenText (token ++ [d]) := by
    intro c hc
    rcases mem_append.mp hc with hc | hc
    · exact ht c hc
    · rw [mem_singleton.mp hc]; exact hd'
  have hlong : minTokenLen ≤ (token ++ [d]).length := by
    rw [length_append]; omega
  have hdefault := defaultTokenize_of_isTokenText htext hlong
  cases tokenizer with
  | default => exact hdefault
  | raw => exact absurd rfl hr
  | stem =>
    have hstem : liteStem (token ++ [d]) = some (token ++ [d]) := by
      unfold liteStem
      rw [stripEnding_concat_digit hd, if_pos hlong]
    change (defaultTokenize (token ++ [d])).filterMap liteStem = _
    rw [hdefault, filterMap_cons_some hstem, filterMap_nil]

end LogLake
