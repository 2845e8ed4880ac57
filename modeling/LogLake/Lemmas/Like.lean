import LogLake.RawPrune

/-! # What a `%inner%` pattern matches -/

namespace LogLake

open List

def LikeToken.literal? : LikeToken → Option Char
  | .lit c => some c
  | _ => none

/-- The literal characters a pattern stands for, with the default escape. -/
def literalText (pattern : Text) : Text := (parseLike '\\' pattern).filterMap LikeToken.literal?

theorem filterMap_literal?_map_lit (l : Text) : (l.map LikeToken.lit).filterMap LikeToken.literal? = l := by
  induction l with
  | nil => rfl
  | cons c l ih =>
    have hlit : (LikeToken.lit c).literal? = some c := rfl
    rw [map_cons, filterMap_cons_some hlit, ih]

/-! ## Matching -/

@[simp] theorem likeMatch_nil (t : Text) : likeMatch [] t = true ↔ t = [] := by
  unfold likeMatch
  exact isEmpty_iff

theorem likeMatch_any_cons (p : List LikeToken) (t : Text) :
    likeMatch (.any :: p) t = true ↔ ∃ s, s <:+ t ∧ likeMatch p s = true := by
  rw [likeMatch, any_eq_true]
  exact exists_congr fun s => and_congr_left fun _ => mem_tails ..

theorem likeMatch_map_lit_any (l t : Text) : likeMatch (l.map .lit ++ [.any]) t = true ↔ l <+: t := by
  induction l generalizing t with
  | nil =>
    rw [map_nil, nil_append, likeMatch_any_cons]
    exact ⟨fun _ => nil_prefix, fun _ => ⟨[], nil_suffix, (likeMatch_nil []).mpr rfl⟩⟩
  | cons c l ih =>
    cases t with
    | nil => simp [likeMatch]
    | cons d t =>
      rw [map_cons, cons_append, likeMatch, Bool.and_eq_true, beq_iff_eq, ih, cons_prefix_cons]

theorem likeMatch_map_lit (l t : Text) : likeMatch (l.map .lit) t = true ↔ t = l := by
  induction l generalizing t with
  | nil => exact likeMatch_nil t
  | cons c l ih =>
    cases t with
    | nil => simp [likeMatch]
    | cons d t => rw [map_cons, likeMatch, Bool.and_eq_true, beq_iff_eq, ih, List.cons.injEq, eq_comm (a := c)]

/-! ## Parsing -/

theorem parseLike_cons_of_ne {c : Char} {rest : Text} (hc : c ≠ '\\') (hpct : c ≠ '%') (hund : c ≠ '_') :
    parseLike '\\' (c :: rest) = .lit c :: parseLike '\\' rest := by
  cases rest with
  | nil | cons d rest => simp [parseLike, hc, hpct, hund]

theorem parseLike_concat_percent : ∀ inner : Text, '%' ∉ inner → '_' ∉ inner →
    ∃ l : Text, parseLike '\\' (inner ++ ['%']) = l.map .lit ++ [.any] ∨ parseLike '\\' (inner ++ ['%']) = l.map .lit
  | [], _, _ => ⟨[], Or.inl rfl⟩
  | [c], hpct, hund => by
    by_cases hc : c = '\\'
    · subst hc
      exact ⟨['%'], Or.inr rfl⟩
    · rw [mem_singleton] at hpct hund
      refine ⟨[c], Or.inl ?_⟩
      rw [singleton_append, parseLike_cons_of_ne hc (Ne.symm hpct) (Ne.symm hund)]
      rfl
  | c :: d :: rest, hpct, hund => by
    simp only [mem_cons, not_or] at hpct hund
    by_cases hc : c = '\\'
    · subst hc
      obtain ⟨l, hl⟩ := parseLike_concat_percent rest hpct.2.2 hund.2.2
      have hstep : parseLike '\\' ('\\' :: d :: rest ++ ['%']) = .lit d :: parseLike '\\' (rest ++ ['%']) := by
        simp [parseLike]
      rw [hstep]
      exact ⟨d :: l, hl.imp (fun h => by rw [h]; rfl) (fun h => by rw [h]; rfl)⟩
    · obtain ⟨l, hl⟩ := parseLike_concat_percent (d :: rest) (by simp [hpct.2]) (by simp [hund.2])
      rw [cons_append, parseLike_cons_of_ne hc (Ne.symm hpct.1) (Ne.symm hund.1)]
      exact ⟨c :: l, hl.imp (fun h => by rw [h]; rfl) (fun h => by rw [h]; rfl)⟩

theorem parseLike_percent_cons (rest : Text) : parseLike '\\' ('%' :: rest) = .any :: parseLike '\\' rest := by
  cases rest <;> simp [parseLike]

variable {pattern inner : Text}

section

variable (h : likeInner pattern = some inner)
include h

theorem likeInner_eq_some : pattern = '%' :: (inner ++ ['%']) ∧ '%' ∉ inner ∧ '_' ∉ inner := by
  unfold likeInner at h
  split at h
  · cases h
  · next r hr =>
    obtain ⟨m, hm, hr⟩ := Option.bind_eq_some_iff.mp hr
    split at h
    · cases h
    · next hw =>
      rw [Option.some.injEq] at h
      subst h
      rw [mem_stripPrefix.mp hm, mem_stripSuffix.mp hr]
      exact ⟨rfl, fun hp => hw (Or.inl hp), fun hu => hw (Or.inr hu)⟩

theorem parseLike_of_likeInner : parseLike '\\' pattern = .any :: ((literalText pattern).map .lit ++ [.any]) ∨
      parseLike '\\' pattern = .any :: (literalText pattern).map .lit := by
  obtain ⟨rfl, hpct, hund⟩ := likeInner_eq_some h
  obtain ⟨l, hl⟩ := parseLike_concat_percent inner hpct hund
  have htext : literalText ('%' :: (inner ++ ['%'])) = l := by
    unfold literalText
    rw [parseLike_percent_cons, filterMap_cons_none rfl]
    rcases hl with hl | hl
    · rw [hl, filterMap_append, filterMap_literal?_map_lit]
      exact append_nil l
    · rw [hl, filterMap_literal?_map_lit]
  rw [parseLike_percent_cons, htext]
  exact hl.imp (fun h => by rw [h]) (fun h => by rw [h])

theorem literalText_infix_of_likeMatch {t : Text}
    (hm : likeMatch (parseLike '\\' pattern) t = true) : literalText pattern <:+: t := by
  rcases parseLike_of_likeInner h with hp | hp
  · rw [hp, likeMatch_any_cons] at hm
    obtain ⟨s, hs, hm⟩ := hm
    exact ((likeMatch_map_lit_any _ s).mp hm).isInfix.trans hs.isInfix
  · rw [hp, likeMatch_any_cons] at hm
    obtain ⟨s, hs, hm⟩ := hm
    rw [(likeMatch_map_lit _ s).mp hm] at hs
    exact hs.isInfix

theorem likeMatch_literalText : likeMatch (parseLike '\\' pattern) (literalText pattern) = true := by
  rcases parseLike_of_likeInner h with hp | hp
  · rw [hp, likeMatch_any_cons]
    exact ⟨_, suffix_rfl, (likeMatch_map_lit_any _ _).mpr prefix_rfl⟩
  · rw [hp, likeMatch_any_cons]
    exact ⟨_, suffix_rfl, (likeMatch_map_lit _ _).mpr rfl⟩

end

theorem parseLike_concat_percent_of_no_escape (l : Text) (hesc : '\\' ∉ l) (hpct : '%' ∉ l) (hund : '_' ∉ l) :
    parseLike '\\' (l ++ ['%']) = l.map .lit ++ [.any] := by
  induction l with
  | nil => rfl
  | cons c l ih =>
    simp only [mem_cons, not_or] at hesc hpct hund
    rw [cons_append, parseLike_cons_of_ne (Ne.symm hesc.1) (Ne.symm hpct.1) (Ne.symm hund.1), ih hesc.2 hpct.2 hund.2]
    rfl

end LogLake
