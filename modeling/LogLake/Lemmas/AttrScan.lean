import LogLake.AttrScan
import LogLake.Lemmas.AttrGet

/-!
# The scanner by positions reads inside the text

A position stands for what is left of the text from there. Every function of the scanner by positions returns, without a fault, what
the scanner over the rest of the text finds.
-/

namespace LogLake

open List JsonText

variable {t : Text}

/-! ## Positions -/

theorem drop_of_getElem? {i : Nat} {c : Char} (h : t[i]? = some c) : t.drop i = c :: t.drop (i + 1) := by
  obtain ⟨hi, rfl⟩ := List.getElem?_eq_some_iff.mp h
  exact drop_eq_getElem_cons hi

/-- The part of a text at a position is a slice of it. -/
theorem sliceText_of_drop {start : Nat} {part rest : Text} (h : t.drop start = part ++ rest) (hstart : start ≤ t.length) :
    sliceText t start (start + part.length) = .ok part := by
  have hlength := congrArg List.length h
  rw [length_drop, length_append] at hlength
  unfold sliceText
  rw [if_pos ⟨Nat.le_add_right _ _, by omega⟩, drop_take, Nat.add_sub_cancel_left, h, take_left]

/-- Skipping blanks by positions skips those of the rest of the text. -/
theorem drop_skipWsFrom (t : Text) (i : Nat) : t.drop (skipWsFrom t i) = skipWs (t.drop i) := by
  fun_induction skipWsFrom t i with
  | case1 i hi hblank ih =>
    rw [ih, drop_eq_getElem_cons hi, skipWs, skipWs, dropWhile_cons, if_pos hblank]
  | case2 i hi hblank =>
    rw [drop_eq_getElem_cons hi, skipWs_cons (Bool.eq_false_iff.mpr hblank)]
  | case3 i hi =>
    rw [drop_eq_nil_of_le (Nat.le_of_not_lt hi)]
    rfl

/-- The character expected at a position is there, and what follows it; or it is not. -/
theorem expect_drop (c : Char) (t : Text) (i : Nat) :
    (t[i]? = some c ∧ expect c (t.drop i) = some (t.drop (i + 1))) ∨ (t[i]? ≠ some c ∧ expect c (t.drop i) = none) := by
  cases hi : t[i]? with
  | none =>
    refine .inr ⟨nofun, ?_⟩
    rw [drop_eq_nil_of_le (List.getElem?_eq_none_iff.mp hi)]
    rfl
  | some d =>
    rw [drop_of_getElem? hi]
    by_cases hd : d = c
    · exact .inl ⟨congrArg some hd, by rw [hd, expect_self]⟩
    · exact .inr ⟨fun heq => hd (Option.some.inj heq), expect_of_ne hd _⟩

/-! ## Strings and values -/

/-- The scan of a string by positions ends where the scan of the rest ends. -/
theorem scanStringFrom_eq (start j : Nat) : scanStringFrom t start j =
    .ok ((scanString (t.drop j)).map fun r => ⟨start, j + r.1.length, j + r.1.length + 1⟩) := by
  fun_induction scanStringFrom t start j with
  | case1 j hj ihEscape ih =>
    rw [indexText_of_lt hj, drop_eq_getElem_cons hj]
    dsimp only [bind, Except.bind]
    by_cases hback : t[j] = '\\'
    · rw [if_pos hback, ihEscape, hback]
      cases hnext : t[j + 1]? with
      | none =>
        rw [drop_eq_nil_of_le (List.getElem?_eq_none_iff.mp hnext),
          drop_eq_nil_of_le (Nat.le_succ_of_le (List.getElem?_eq_none_iff.mp hnext))]
        rfl
      | some d =>
        rw [drop_of_getElem? hnext, scanString, Option.map_map]
        refine congrArg Except.ok (congrArg (Option.map · _) (funext fun r => ?_))
        simp only [Function.comp_apply, length_cons, StringSpan.mk.injEq, true_and]
        omega
    · rw [if_neg hback]
      by_cases hquote : t[j] = '"'
      · rw [if_pos hquote, hquote]
        rfl
      · rw [if_neg hquote, ih, scanString.eq_5 _ _ (fun hc _ => hback hc) (fun _ _ hc _ => hback hc) hquote, Option.map_map]
        refine congrArg Except.ok (congrArg (Option.map · _) (funext fun r => ?_))
        simp only [Function.comp_apply, length_cons, StringSpan.mk.injEq, true_and]
        omega
  | case2 j hj =>
    rw [drop_eq_nil_of_le (Nat.le_of_not_lt hj)]
    rfl

theorem scanNested_quoted_eq (depth : Nat) (rest : Text) : scanNested depth .quoted rest =
    (scanString rest).bind fun r => consumed (r.1 ++ ['"']) (scanNested depth .outside r.2) := by
  fun_induction scanString rest with
  | case1 => rfl
  | case2 => rfl
  | case3 c rest ih =>
    rw [scanNested]
    simp only [if_true, scanNested, ih]
    cases scanString rest with
    | none => rfl
    | some r => simp
  | case4 rest => simp [scanNested]
  | case5 c rest hne hnq hquote ih =>
    have hback := ne_backslash hne hnq
    rw [scanNested]
    simp only [if_neg hback, if_neg hquote, ih]
    cases scanString rest with
    | none => rfl
    | some r => simp

theorem map_consumed (j : Nat) (part : Text) (o : Option (Text × Text)) :
    ((consumed part o).map fun r => j + r.1.length) = o.map fun r => j + part.length + r.1.length := by
  cases o with
  | none => rfl
  | some r => simp [consumed, Nat.add_assoc]

/-- Inside a nested value the depth is positive, so it never falls below zero. -/
theorem scanNestedFrom_eq {depth : Nat} (hdepth : 0 < depth) (j : Nat) :
    scanNestedFrom t depth j = .ok ((scanNested depth .outside (t.drop j)).map fun r => j + r.1.length) := by
  fun_induction scanNestedFrom t depth j with
  | case1 depth j hj ihString ihOpen ihClose ih =>
    rw [indexText_of_lt hj, drop_eq_getElem_cons hj]
    dsimp only [bind, Except.bind]
    by_cases hquote : t[j] = '"'
    · have hstring : scanStringAt t j = _ := scanStringFrom_eq (t := t) (j + 1) (j + 1)
      have hinside : scanNested depth .outside ('"' :: t.drop (j + 1)) = consumed ['"'] (scanNested depth .quoted (t.drop (j + 1))) := by
        rw [scanNested, if_pos rfl]
      rw [if_pos hquote, hquote, hinside, map_consumed, scanNested_quoted_eq]
      cases hscan : scanString (t.drop (j + 1)) with
      | none =>
        rw [hscan] at hstring
        split
        · next hspan => cases hstring.symm.trans hspan
        · rfl
        · next hspan => cases hstring.symm.trans hspan
      | some r =>
        rw [hscan] at hstring
        have hrest : t.drop (j + 1 + r.1.length + 1) = r.2 := by
          have hdrop := congrArg (drop (r.1.length + 1)) (scanString_eq_some hscan)
          rw [drop_drop, drop_length_add_append] at hdrop
          exact hdrop
        split
        · next span hspan =>
          obtain rfl : _ = span := Option.some.inj (Except.ok.inj (hstring.symm.trans hspan))
          rw [ihString _ hspan hdepth, hrest, Option.bind_some, map_consumed]
          simp only [length_append, length_singleton, Nat.add_assoc]
        · next hspan => cases hstring.symm.trans hspan
        · next hspan => cases hstring.symm.trans hspan
    · rw [if_neg hquote]
      by_cases hopen : t[j] = '{' ∨ t[j] = '['
      · rw [if_pos hopen, ihOpen (Nat.succ_pos depth), scanNested_open hopen, map_consumed]
        rfl
      · rw [if_neg hopen]
        by_cases hclose : t[j] = '}' ∨ t[j] = ']'
        · obtain ⟨depth, rfl⟩ := Nat.exists_eq_succ_of_ne_zero hdepth.ne'
          rw [Nat.succ_sub_one] at ihClose
          rw [if_pos hclose, if_neg (Nat.succ_ne_zero depth), scanNested_close hclose, Nat.succ_sub_one]
          by_cases hzero : depth = 0
          · rw [if_pos hzero, if_pos hzero]
            rfl
          · rw [if_neg hzero, if_neg hzero, ihClose (Nat.pos_of_ne_zero hzero), map_consumed]
            rfl
        · have hinner : isInner t[j] = true := by
            obtain ⟨hbrace, hbracket⟩ := not_or.mp hopen
            obtain ⟨hbrace', hbracket'⟩ := not_or.mp hclose
            simp [isInner, hquote, hbrace, hbracket, hbrace', hbracket']
          rw [if_neg hclose, ih hdepth, scanNested_inner hinner, map_consumed]
          rfl
  | case2 depth j hj =>
    rw [drop_eq_nil_of_le (Nat.le_of_not_lt hj)]
    rfl

theorem scanNestedFrom_open {i : Nat} {c : Char} (hi : t[i]? = some c) (hopen : c = '{' ∨ c = '[') (depth : Nat) :
    scanNestedFrom t depth i = scanNestedFrom t (depth + 1) (i + 1) := by
  obtain ⟨hlt, rfl⟩ := List.getElem?_eq_some_iff.mp hi
  have hquote : t[i] ≠ '"' := by rcases hopen with h | h <;> rw [h] <;> decide
  rw [scanNestedFrom, dif_pos hlt, indexText_of_lt hlt]
  dsimp only [bind, Except.bind]
  rw [if_neg hquote, if_pos hopen]

/-- The scan of a scalar by positions stops at the first delimiter. -/
theorem scanScalarFrom_eq (j : Nat) :
    scanScalarFrom t j = .ok (j + ((t.drop j).takeWhile fun c => !isDelimiter c).length) := by
  fun_induction scanScalarFrom t j with
  | case1 j hj ih =>
    rw [indexText_of_lt hj, drop_eq_getElem_cons hj, takeWhile_cons]
    dsimp only [bind, Except.bind]
    cases hdelimiter : isDelimiter t[j] with
    | true => rfl
    | false =>
      rw [if_neg Bool.false_ne_true, ih, Bool.not_false, if_pos rfl, length_cons, Nat.add_assoc, Nat.add_comm 1]
  | case2 j hj =>
    rw [drop_eq_nil_of_le (Nat.le_of_not_lt hj)]
    rfl

/-- The scan of a value by positions ends where the scan of the rest ends, and never faults. -/
theorem scanValueEndAt_eq (i : Nat) :
    scanValueEndAt t i = .ok ((scanValueEnd (t.drop i)).map fun r => i + r.1.length) := by
  unfold scanValueEndAt
  cases hi : t[i]? with
  | none =>
    rw [drop_eq_nil_of_le (List.getElem?_eq_none_iff.mp hi)]
    rfl
  | some c =>
    rw [drop_of_getElem? hi, scanValueEnd]
    dsimp only
    split
    · rw [scanStringAt, scanStringFrom_eq]
      dsimp only [bind, Except.bind, pure, Except.pure]
      rw [Option.map_map, Option.map_map]
      refine congrArg Except.ok (congrArg (Option.map · _) (funext fun r => ?_))
      simp only [Function.comp_apply, length_cons, length_append, length_nil]
      omega
    · split
      · next hopen =>
        rw [scanNestedFrom_open hi hopen, scanNestedFrom_eq Nat.one_pos, scanNested_open hopen, map_consumed]
        rfl
      · rw [scanScalarFrom_eq, drop_of_getElem? hi]
        dsimp only [bind, Except.bind, pure, Except.pure]
        by_cases hnone : (c :: t.drop (i + 1)).takeWhile (fun c => !isDelimiter c) = []
        · rw [if_pos hnone, hnone, if_neg (by simp)]
          rfl
        · have hpos := length_pos_iff.mpr hnone
          rw [if_neg hnone, if_pos (Nat.lt_add_of_pos_right hpos)]
          rfl

/-! ## Members -/

variable {S : Serde} {json key : Text}

/-- The comparison of a name by positions is that of its text. -/
theorem Serde.nameMatches_eq {quote : Nat} {raw rest : Text} (h : json.drop quote = '"' :: (raw ++ '"' :: rest)) :
    S.nameMatches json key quote ⟨quote + 1, quote + 1 + raw.length, quote + 1 + raw.length + 1⟩ =
      .ok (S.keyMatches raw key) := by
  have hlength := congrArg List.length h
  rw [length_drop, length_cons] at hlength
  have hraw : json.drop (quote + 1) = raw ++ '"' :: rest := by rw [← drop_drop, h, drop_one, tail_cons]
  have hquoted : json.drop quote = ('"' :: (raw ++ ['"'])) ++ rest := by rw [h, cons_append, append_assoc, singleton_append]
  have hquotedSlice := sliceText_of_drop hquoted (by omega)
  have hstop : quote + ('"' :: (raw ++ ['"'])).length = quote + 1 + raw.length + 1 := by
    rw [length_cons, length_append, length_singleton]
    omega
  rw [hstop] at hquotedSlice
  unfold nameMatches keyMatches
  dsimp only [bind, Except.bind, pure, Except.pure]
  rw [sliceText_of_drop hraw (by omega), hquotedSlice]
  dsimp only
  split <;> rfl

/-- The loop by positions is the loop over the rest of the text. -/
theorem Serde.findMemberFrom_eq (fuel i : Nat) :
    S.findMemberFrom json key fuel i = .ok (S.findMember key fuel (json.drop i)) := by
  induction fuel generalizing i with
  | zero => rfl
  | succ fuel ih =>
    rw [findMemberFrom, findMember, ← drop_skipWsFrom]
    dsimp only
    rcases expect_drop '"' json (skipWsFrom json i) with ⟨hquote, hopen⟩ | ⟨hquote, hopen⟩
    swap
    · rw [if_neg hquote, hopen]
      rfl
    have hstart := drop_of_getElem? hquote
    generalize skipWsFrom json i = quote at *
    rw [if_pos hquote, hopen, Option.bind_some, scanStringAt, scanStringFrom_eq]
    cases hname : scanString (json.drop (quote + 1)) with
    | none => rfl
    | some name =>
      have hafter : json.drop (quote + 1 + name.1.length + 1) = name.2 := by
        have hdrop := congrArg (drop (name.1.length + 1)) (scanString_eq_some hname)
        rw [drop_drop, drop_length_add_append] at hdrop
        exact hdrop
      rw [scanString_eq_some hname] at hstart
      rw [Option.bind_some, ← hafter, ← drop_skipWsFrom]
      dsimp only [bind, Except.bind, Option.map_some]
      rcases expect_drop ':' json (skipWsFrom json (quote + 1 + name.1.length + 1)) with ⟨hcolon, hmeets⟩ | ⟨hcolon, hmeets⟩
      swap
      · rw [if_neg hcolon, hmeets]
        rfl
      generalize skipWsFrom json (quote + 1 + name.1.length + 1) = colon at *
      rw [if_pos hcolon, hmeets, Option.bind_some, ← drop_skipWsFrom, scanValueEndAt_eq]
      generalize skipWsFrom json (colon + 1) = vStart at *
      cases hvalue : scanValueEnd (json.drop vStart) with
      | none => rfl
      | some value =>
        have hparts := scanValueEnd_eq_some hvalue
        have hinside : vStart ≤ json.length := by
          by_contra hout
          rw [drop_eq_nil_of_le (Nat.le_of_not_le hout)] at hvalue
          cases hvalue
        have hend : json.drop (vStart + value.1.length) = value.2 := by rw [← drop_drop, hparts, drop_left]
        dsimp only [Option.map_some]
        rw [nameMatches_eq hstart, Option.bind_some]
        dsimp only
        cases S.keyMatches name.1 key with
        | true =>
          rw [if_pos rfl, if_pos rfl, sliceText_of_drop hparts hinside]
          rfl
        | false =>
          rw [if_neg Bool.false_ne_true, if_neg Bool.false_ne_true, ← hend, ← drop_skipWsFrom]
          rcases expect_drop ',' json (skipWsFrom json (vStart + value.1.length)) with ⟨hcomma, hnext⟩ | ⟨hcomma, hnext⟩
          · rw [if_pos hcomma, hnext, Option.bind_some, ih]
          · rw [if_neg hcomma, hnext]
            rfl

/-- The scanner by positions stays inside the text, and finds what the scanner over the rest of the text finds. -/
theorem Serde.findTopLevelValueAt_eq : S.findTopLevelValueAt json key = .ok (S.findTopLevelValue json key) := by
  have hbrace := drop_skipWsFrom json 0
  rw [drop_zero] at hbrace
  unfold findTopLevelValueAt findTopLevelValue
  rw [← hbrace]
  dsimp only
  rcases expect_drop '{' json (skipWsFrom json 0) with ⟨hopen, hmeets⟩ | ⟨hopen, hmeets⟩
  · rw [if_pos hopen, hmeets, Option.bind_some, findMemberFrom_eq]
  · rw [if_neg hopen, hmeets]
    rfl

end LogLake
