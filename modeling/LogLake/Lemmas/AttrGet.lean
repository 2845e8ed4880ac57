import LogLake.AttrGet
import LogLake.Lib.AssocList

/-! # The scanner on documents -/

namespace LogLake

open List Serde
open Option (bind_some map_eq_some_iff bind_eq_some_iff bind_congr)

open JsonText AssocList
open Members (text docs)

/-! ## Blanks and strings -/

theorem skipWs_gap (gap : Gap) (t : Text) : skipWs (gap.val ++ t) = skipWs t := by
  unfold skipWs
  rw [dropWhile_append, dropWhile_eq_nil_iff.mpr (all_eq_true.mp gap.property)]
  rfl

variable {c : Char}

theorem skipWs_cons (h : isBlank c = false) (t : Text) : skipWs (c :: t) = c :: t := by
  unfold skipWs
  rw [dropWhile_cons, h]
  rfl

theorem ne_backslash {c : Char} {raw : Text} (hne : c = '\\' → raw = [] → False)
    (hnq : ∀ a rest, c = '\\' → raw = a :: rest → False) : c ≠ '\\' := by
  intro hc
  cases raw with
  | nil => exact hne hc rfl
  | cons a raw => exact hnq a raw hc rfl

/-- The scan of a string ends at its closing quote. -/
theorem scanString_closed (raw : Text) (h : closed raw = true) (rest : Text) :
    scanString (raw ++ '"' :: rest) = some (raw, rest) := by
  fun_induction closed raw with
  | case1 => rw [nil_append, scanString]
  | case2 => cases h
  | case3 c raw ih =>
    rw [cons_append, cons_append, scanString, ih h]
    rfl
  | case4 => cases h
  | case5 c raw hne hnq hnb ih =>
    have hback := ne_backslash hne hnq
    rw [cons_append, scanString, ih h]
    · rfl
    · exact fun hc => absurd hc hback
    · exact fun _ _ hc => absurd hc hback
    · exact hnb

@[simp] theorem expect_self (c : Char) (t : Text) : expect c (c :: t) = some t := if_pos rfl

theorem expect_of_ne {d : Char} (h : d ≠ c) (t : Text) : expect c (d :: t) = none := if_neg h

/-! ## Nested values -/

@[simp] theorem consumed_consumed (a b : Text) (o : Option (Text × Text)) :
    consumed a (consumed b o) = consumed (a ++ b) o := by
  cases o with
  | none => rfl
  | some r => simp [consumed]

@[simp] theorem consumed_nil (o : Option (Text × Text)) : consumed [] o = o := by
  cases o <;> rfl

@[simp] theorem consumed_some (a b rest : Text) : consumed a (some (b, rest)) = some (a ++ b, rest) := rfl

theorem scanNested_quoted (raw : Text) (h : closed raw = true) (depth : Nat) (rest : Text) :
    scanNested depth .quoted (raw ++ '"' :: rest) = consumed (raw ++ ['"']) (scanNested depth .outside rest) := by
  fun_induction closed raw with
  | case1 => simp [scanNested]
  | case2 => cases h
  | case3 c raw ih =>
    simp [scanNested, ih h]
  | case4 => cases h
  | case5 c raw hne hnq hnb ih =>
    have hback := ne_backslash hne hnq
    rw [cons_append, scanNested]
    simp only [if_neg hback, if_neg hnb, ih h, consumed_consumed]
    rfl

theorem scanNested_string (s : StringToken) (depth : Nat) (rest : Text) :
    scanNested depth .outside (s.text ++ rest) = consumed s.text (scanNested depth .outside rest) := by
  unfold StringToken.text
  rw [cons_append, append_assoc, singleton_append, scanNested]
  simp [scanNested_quoted s.raw s.raw_closed]

/-- A character that neither opens nor closes anything. -/
def isInner (c : Char) : Bool := c ≠ '"' && c ≠ '{' && c ≠ '[' && c ≠ '}' && c ≠ ']'

theorem scanNested_inner (h : isInner c = true) (depth : Nat) (rest : Text) :
    scanNested depth .outside (c :: rest) = consumed [c] (scanNested depth .outside rest) := by
  simp only [isInner, Bool.and_eq_true, decide_eq_true_eq, and_assoc] at h
  obtain ⟨h1, h2, h3, h4, h5⟩ := h
  rw [scanNested]
  simp only [if_neg h1, if_neg (not_or.mpr ⟨h2, h3⟩), if_neg (not_or.mpr ⟨h4, h5⟩)]

theorem scanNested_plain {t : Text} (h : t.all isInner = true) (depth : Nat) (rest : Text) :
    scanNested depth .outside (t ++ rest) = consumed t (scanNested depth .outside rest) := by
  induction t with
  | nil => simp
  | cons c t ih =>
    rw [all_cons, Bool.and_eq_true] at h
    rw [cons_append, scanNested_inner h.1, ih h.2, consumed_consumed]
    rfl

theorem isInner_of_isBlank (h : isBlank c = true) : isInner c = true := by
  simp only [isBlank, Bool.or_eq_true, beq_iff_eq] at h
  rcases h with ((rfl | rfl) | rfl) | rfl <;> decide

theorem scanNested_gap (gap : Gap) (depth : Nat) (rest : Text) :
    scanNested depth .outside (gap.val ++ rest) = consumed gap.val (scanNested depth .outside rest) := by
  refine scanNested_plain (all_eq_true.mpr fun c hc => ?_) depth rest
  exact isInner_of_isBlank (all_eq_true.mp gap.property c hc)

theorem scanNested_open (h : c = '{' ∨ c = '[') (depth : Nat) (rest : Text) :
    scanNested depth .outside (c :: rest) = consumed [c] (scanNested (depth + 1) .outside rest) := by
  rw [scanNested]
  rcases h with rfl | rfl <;> simp

theorem scanNested_close (h : c = '}' ∨ c = ']') (depth : Nat) (rest : Text) : scanNested (depth + 1) .outside (c :: rest) =
      if depth = 0 then some ([c], rest) else consumed [c] (scanNested depth .outside rest) := by
  rw [scanNested]
  rcases h with rfl | rfl <;> simp

theorem isNumberChar_facts (h : isNumberChar c = true) : isInner c = true ∧ isDelimiter c = false := by
  constructor
  · simp only [isInner, Bool.and_eq_true, decide_eq_true_eq]
    refine ⟨⟨⟨⟨?_, ?_⟩, ?_⟩, ?_⟩, ?_⟩ <;> rintro rfl <;> exact absurd h (by decide)
  · cases hd : isDelimiter c with
    | false => rfl
    | true =>
      simp only [isDelimiter, isBlank, Bool.or_eq_true, beq_iff_eq, or_assoc] at hd
      rcases hd with rfl | rfl | rfl | rfl | rfl | rfl | rfl <;> exact absurd h (by decide)

theorem scanNested_token {t : Text} (h : t.all isNumberChar = true) (depth : Nat) (rest : Text) :
    scanNested depth .outside (t ++ rest) = consumed t (scanNested depth .outside rest) := by
  refine scanNested_plain (all_eq_true.mpr fun c hc => ?_) depth rest
  exact (isNumberChar_facts (all_eq_true.mp h c hc)).1

mutual

/-- The nested scan consumes a document and keeps its depth. -/
theorem scanNested_doc : ∀ (d : Doc) (depth : Nat) (rest : Text),
    scanNested (depth + 1) .outside (d.text ++ rest) = consumed d.text (scanNested (depth + 1) .outside rest)
  | .null, depth, rest | .bool true, depth, rest | .bool false, depth, rest => scanNested_plain (by decide) (depth + 1) rest
  | .number token, depth, rest => scanNested_token token.property.2 (depth + 1) rest
  | .string s, depth, rest => scanNested_string s (depth + 1) rest
  | .emptyArray gap, depth, rest => by
    rw [Doc.text, cons_append, append_assoc, scanNested_open (.inr rfl), scanNested_gap, singleton_append,
      scanNested_close (.inr rfl), if_neg (Nat.succ_ne_zero depth)]
    simp
  | .array items, depth, rest => by
    rw [Doc.text, cons_append, append_assoc, scanNested_open (.inr rfl), scanNested_items, singleton_append,
      scanNested_close (.inr rfl), if_neg (Nat.succ_ne_zero depth)]
    simp
  | .emptyObject gap, depth, rest => by
    rw [Doc.text, cons_append, append_assoc, scanNested_open (.inl rfl), scanNested_gap, singleton_append,
      scanNested_close (.inl rfl), if_neg (Nat.succ_ne_zero depth)]
    simp
  | .object members, depth, rest => by
    rw [Doc.text, cons_append, append_assoc, scanNested_open (.inl rfl), scanNested_members,
      singleton_append, scanNested_close (.inl rfl), if_neg (Nat.succ_ne_zero depth)]
    simp

theorem scanNested_items : ∀ (items : Items) (depth : Nat) (rest : Text),
    scanNested (depth + 1) .outside (items.text ++ rest) = consumed items.text (scanNested (depth + 1) .outside rest)
  | .one before item after, depth, rest => by
    rw [Items.text, append_assoc, append_assoc, scanNested_gap, scanNested_doc item, scanNested_gap]
    simp
  | .more before item after items, depth, rest => by
    rw [Items.text, append_assoc, append_assoc, append_assoc, cons_append, scanNested_gap,
      scanNested_doc item, scanNested_gap, scanNested_inner (by decide), scanNested_items items]
    simp

theorem scanNested_members : ∀ (members : Members) (depth : Nat) (rest : Text),
    scanNested (depth + 1) .outside (members.text ++ rest) = consumed members.text (scanNested (depth + 1) .outside rest)
  | .one before name beforeColon afterColon item after, depth, rest => by
    rw [text, append_assoc, append_assoc, append_assoc, cons_append, append_assoc,
      append_assoc, scanNested_gap, scanNested_string, scanNested_gap, scanNested_inner (by decide), scanNested_gap,
      scanNested_doc item, scanNested_gap]
    simp
  | .more before name beforeColon afterColon item after members, depth, rest => by
    rw [text, append_assoc, append_assoc, append_assoc, cons_append, append_assoc,
      append_assoc, append_assoc, cons_append, scanNested_gap, scanNested_string, scanNested_gap,
      scanNested_inner (by decide), scanNested_gap, scanNested_doc item, scanNested_gap, scanNested_inner (by decide),
      scanNested_members members]
    simp

end

/-! ## The end of a value -/

/-- What may follow a value: nothing, or a delimiter. -/
def Delimited (rest : Text) : Prop := ∀ c ∈ rest.head?, isDelimiter c = true

theorem delimited_gap (gap : Gap) {c : Char} (h : isDelimiter c = true) (rest : Text) :
    Delimited (gap.val ++ c :: rest) := by
  intro x hx
  cases hgap : gap.val with
  | nil =>
    rw [hgap] at hx
    obtain rfl := Option.some.inj hx
    exact h
  | cons b t =>
    rw [hgap] at hx
    obtain rfl := Option.some.inj hx
    have hblank := all_eq_true.mp gap.property b (hgap ▸ mem_cons_self)
    simp [isDelimiter, hblank]

variable {rest : Text}

theorem scanValueEnd_token {t : Text} (hne : t ≠ []) (hinner : t.all isInner = true)
    (hall : (t.all fun c => !isDelimiter c) = true) (hrest : Delimited rest) :
    scanValueEnd (t ++ rest) = some (t, rest) := by
  obtain ⟨c, t, rfl⟩ := exists_cons_of_ne_nil hne
  have hc := all_eq_true.mp hinner c mem_cons_self
  simp only [isInner, Bool.and_eq_true, decide_eq_true_eq, and_assoc] at hc
  obtain ⟨h1, h2, h3, -, -⟩ := hc
  have hdrop : rest.dropWhile (fun c => !isDelimiter c) = rest := by
    cases rest with
    | nil => rfl
    | cons d rest => rw [dropWhile_cons, hrest d rfl]; rfl
  have htake : rest.takeWhile (fun c => !isDelimiter c) = [] := by
    cases rest with
    | nil => rfl
    | cons d rest => rw [takeWhile_cons, hrest d rfl]; rfl
  have hword : ∀ x ∈ c :: t, (!isDelimiter x) = true := all_eq_true.mp hall
  rw [cons_append, scanValueEnd, if_neg h1, if_neg (not_or.mpr ⟨h2, h3⟩), ← cons_append]
  simp only [takeWhile_append_of_pos hword, dropWhile_append_of_pos hword, hdrop, htake, append_nil]
  rw [if_neg hne]

theorem scanValueEnd_nested {c e : Char} (hc : c = '{' ∨ c = '[') (he : e = '}' ∨ e = ']') {body : Text}
    (hbody : ∀ depth rest,
      scanNested (depth + 1) .outside (body ++ rest) = consumed body (scanNested (depth + 1) .outside rest))
    (rest : Text) : scanValueEnd (c :: (body ++ [e]) ++ rest) = some (c :: (body ++ [e]), rest) := by
  have hquote : c ≠ '"' := by rcases hc with rfl | rfl <;> decide
  rw [cons_append, scanValueEnd, if_neg hquote, if_pos hc, scanNested_open hc, append_assoc, hbody,
    singleton_append, scanNested_close he, if_pos rfl]
  simp

/-- The end of a value is found where the document ends. -/
theorem scanValueEnd_doc (d : Doc) (hrest : Delimited rest) : scanValueEnd (d.text ++ rest) = some (d.text, rest) := by
  cases d with
  | null => exact scanValueEnd_token (by decide) (by decide) (by decide) hrest
  | bool b => cases b <;> exact scanValueEnd_token (by decide) (by decide) (by decide) hrest
  | number token =>
    have hchars := all_eq_true.mp token.property.2
    refine scanValueEnd_token token.property.1 ?_ ?_ hrest
    · exact all_eq_true.mpr fun c hc => (isNumberChar_facts (hchars c hc)).1
    · exact all_eq_true.mpr fun c hc => by rw [(isNumberChar_facts (hchars c hc)).2]; rfl
  | string s =>
    rw [Doc.text, StringToken.text, cons_append, append_assoc, singleton_append, scanValueEnd, if_pos rfl,
      scanString_closed s.raw s.raw_closed]
    rfl
  | emptyArray gap => exact scanValueEnd_nested (.inr rfl) (.inr rfl) (fun depth => scanNested_gap gap (depth + 1)) rest
  | array items => exact scanValueEnd_nested (.inr rfl) (.inr rfl) (scanNested_items items) rest
  | emptyObject gap => exact scanValueEnd_nested (.inl rfl) (.inl rfl) (fun depth => scanNested_gap gap (depth + 1)) rest
  | object members => exact scanValueEnd_nested (.inl rfl) (.inl rfl) (scanNested_members members) rest

/-! ## Members -/

mutual

/-- A reader reads a document as it is meant: the document itself, every value in it and the names of its members. -/
def Serde.Reads (S : Serde) : Doc → Prop
  | .object members => S.fromStr (Doc.object members).text = some (Doc.object members).value ∧ S.ReadsMembers members
  | d => S.fromStr d.text = some d.value

def Serde.ReadsMembers (S : Serde) : Members → Prop
  | .one _ name _ _ item _ => S.unquote name.text = some name.decoded ∧ S.Reads item
  | .more _ name _ _ item _ rest => S.unquote name.text = some name.decoded ∧ S.Reads item ∧ S.ReadsMembers rest

end

section

variable {S : Serde}

theorem Serde.Reads.fromStr {d : Doc} (h : S.Reads d) : S.fromStr d.text = some d.value := by
  cases d with
  | object members =>
    rw [Serde.Reads] at h
    exact h.1
  | _ => exact h

theorem Serde.Reads.members {members : Members} (h : S.Reads (.object members)) : S.ReadsMembers members := by
  rw [Serde.Reads] at h
  exact h.2

def memberNames : Members → List StringToken
  | .one _ name _ _ _ _ => [name]
  | .more _ name _ _ _ _ rest => name :: memberNames rest

def topNames : Doc → List StringToken
  | .object members => memberNames members
  | _ => []

/-- Names as they are spelled are compared with a key by what they decode to; one that decodes to nothing is no key. -/
def Serde.Decodes (S : Serde) (decode : StringToken → Option Text) (names : List StringToken) : Prop :=
  ∀ name ∈ names, ∀ key, S.keyMatches name.raw key = (some key == decode name)

/-- A name matches the key exactly when it decodes to it. -/
theorem Serde.keyMatches_eq {name : StringToken} {decoded : Option Text} (hplain : '\\' ∉ name.raw → decoded = some name.raw)
    (h : '\\' ∈ name.raw → S.unquote name.text = decoded) (key : Text) : S.keyMatches name.raw key = (some key == decoded) := by
  unfold keyMatches
  rw [Bool.eq_iff_iff, beq_iff_eq]
  split
  · next hescaped =>
    rw [show '"' :: (name.raw ++ ['"']) = name.text from rfl, h hescaped, decide_eq_true_eq, eq_comm]
  · next hraw => rw [decide_eq_true_eq, hplain hraw, Option.some.injEq, eq_comm]

theorem Serde.ReadsMembers.names :
    ∀ {members : Members}, S.ReadsMembers members → S.Decodes (fun name => some name.decoded) (memberNames members)
  | .one _ name _ _ _ _, h => by
    rw [Serde.ReadsMembers] at h
    exact forall_mem_singleton.mpr (keyMatches_eq (fun hplain => congrArg some (name.decoded_eq hplain)) fun _ => h.1)
  | .more _ name _ _ _ _ rest, h => by
    rw [Serde.ReadsMembers] at h
    exact forall_mem_cons.mpr ⟨keyMatches_eq (fun hplain => congrArg some (name.decoded_eq hplain)) fun _ => h.1, h.2.2.names⟩

def memberCount : Members → Nat
  | .one _ _ _ _ _ _ => 1
  | .more _ _ _ _ _ _ rest => memberCount rest + 1

theorem memberCount_le : ∀ members : Members, memberCount members ≤ members.text.length
  | .one _ _ _ _ _ _ => by
    simp only [memberCount, text, length_append, length_cons]
    omega
  | .more _ _ _ _ _ _ rest => by
    have hrest := memberCount_le rest
    simp only [memberCount, text, length_append, length_cons]
    omega

variable {decode : StringToken → Option Text}

theorem text_head (d : Doc) : ∃ c text, d.text = c :: text ∧ isBlank c = false ∧ (c = '{' → d.isObject = true) := by
  cases d with
  | null => exact ⟨_, _, rfl, by decide, by decide⟩
  | bool b => cases b <;> exact ⟨_, _, rfl, by decide, by decide⟩
  | number token =>
    obtain ⟨c, text, htext⟩ := exists_cons_of_ne_nil token.property.1
    have hc := all_eq_true.mp token.property.2 c (htext ▸ mem_cons_self)
    refine ⟨c, text, htext, ?_, ?_⟩
    · have hdelimiter := (isNumberChar_facts hc).2
      simp only [isDelimiter, Bool.or_eq_false_iff] at hdelimiter
      exact hdelimiter.2
    · rintro rfl
      exact absurd hc (by decide)
  | string s | emptyArray gap | array items => exact ⟨_, _, rfl, by decide, fun h => absurd h (by decide)⟩
  | emptyObject gap | object members => exact ⟨_, _, rfl, by decide, fun _ => rfl⟩

/-- One turn of the loop: the member is the one, or the loop goes on behind the comma. -/
theorem Serde.findMember_step (key : Text) (fuel : Nat) (before : Gap) {name : StringToken}
    (hname : ∀ key, S.keyMatches name.raw key = (some key == decode name)) (beforeColon afterColon : Gap) (item : Doc)
    (hrest : Delimited rest) : S.findMember key (fuel + 1)
      (before.val ++ (name.text ++ (beforeColon.val ++ ':' :: (afterColon.val ++ (item.text ++ rest))))) =
      if some key == decode name then some item.text else (expect ',' (skipWs rest)).bind (S.findMember key fuel) := by
  obtain ⟨c, text, htext, hblank, -⟩ := text_head item
  have hitem : skipWs (item.text ++ rest) = item.text ++ rest := by
    rw [htext, cons_append, skipWs_cons hblank]
  rw [findMember, skipWs_gap, StringToken.text, cons_append, skipWs_cons (by decide), append_assoc,
    singleton_append, expect_self, bind_some, scanString_closed name.raw name.raw_closed, bind_some,
    skipWs_gap, skipWs_cons (by decide), expect_self, bind_some, skipWs_gap, hitem, scanValueEnd_doc item hrest,
    bind_some, hname]

/-- The loop over the members finds the first one of the name. -/
theorem Serde.findMember_members (key : Text) :
    ∀ (members : Members), S.Decodes decode (memberNames members) → ∀ (fuel : Nat) (rest : Text), memberCount members ≤ fuel →
      S.findMember key fuel (members.text ++ '}' :: rest) = ((members.decoded decode).lookup (some key)).map Doc.text
  | _, _, 0, _, hfuel => by
    rename_i members _ _
    cases members <;> simp [memberCount] at hfuel
  | .one before name beforeColon afterColon item after, hreads, fuel + 1, rest, _ => by
    rw [text, append_assoc, append_assoc, append_assoc, cons_append, append_assoc,
      append_assoc, findMember_step key fuel before (hreads name mem_cons_self) beforeColon afterColon item
        (delimited_gap after (by decide) rest), skipWs_gap, skipWs_cons (by decide), expect_of_ne (by decide),
      Members.decoded, lookup_cons]
    cases some key == decode name <;> rfl
  | .more before name beforeColon afterColon item after members, hreads, fuel + 1, rest, hfuel => by
    obtain ⟨hname, hnames⟩ := forall_mem_cons.mp hreads
    rw [memberCount, Nat.add_le_add_iff_right] at hfuel
    rw [text, append_assoc, append_assoc, append_assoc, cons_append, append_assoc, append_assoc, append_assoc, cons_append,
      findMember_step key fuel before hname beforeColon afterColon item (delimited_gap after (by decide) _),
      skipWs_gap, skipWs_cons (by decide), expect_self, bind_some, Members.decoded, lookup_cons,
      findMember_members key members hnames fuel rest hfuel]
    cases some key == decode name <;> rfl

/-! ## Lookups -/

def firstMember : Json → Text → Option Json
  | .object members, key => members.lookup key
  | _, _ => none

theorem reads_of_mem : ∀ {members : Members}, S.ReadsMembers members → ∀ m ∈ members.docs, S.Reads m.2
  | .one _ _ _ _ _ _, h, m, hm => by
    rw [Serde.ReadsMembers] at h
    rw [docs, mem_singleton] at hm
    rw [hm]
    exact h.2
  | .more _ _ _ _ _ _ rest, h, m, hm => by
    rw [Serde.ReadsMembers] at h
    rw [docs] at hm
    rcases mem_cons.mp hm with rfl | hm
    · exact h.2.1
    · exact reads_of_mem h.2.2 m hm

/-- The member found in the text of an object is its first one of the name. -/
theorem Serde.findTopLevelValue_members (before after : Gap) {d : Doc} {members : List (Option Text × Doc)}
    (hmembers : d.members decode = some members) (hnames : S.Decodes decode (topNames d)) (key : Text) :
    S.findTopLevelValue (before.val ++ (d.text ++ after.val)) key = (members.lookup (some key)).map Doc.text := by
  unfold findTopLevelValue
  rw [skipWs_gap]
  cases d with
  | object members =>
    cases hmembers
    rw [Doc.text, cons_append, skipWs_cons (by decide), expect_self, bind_some, append_assoc, singleton_append]
    refine findMember_members key members hnames _ _ ?_
    have hcount := memberCount_le members
    simp only [length_append, length_cons]
    omega
  | emptyObject gap =>
    cases hmembers
    rw [Doc.text, cons_append, skipWs_cons (by decide), expect_self, bind_some, append_assoc, singleton_append]
    have hfuel : ∃ n, (before.val ++ '{' :: (gap.val ++ '}' :: after.val)).length = n + 1 := by
      simp only [length_append, length_cons]
      exact ⟨before.val.length + (gap.val.length + (after.val.length + 1)), by omega⟩
    obtain ⟨n, hn⟩ := hfuel
    rw [hn, findMember, skipWs_gap, skipWs_cons (by decide), expect_of_ne (by decide)]
    rfl
  | _ => nomatch hmembers

theorem Serde.findTopLevelValue_doc (before after : Gap) {d : Doc} (h : S.Reads d) (key : Text) :
    ∃ found : Option Doc, S.findTopLevelValue (before.val ++ (d.text ++ after.val)) key = found.map Doc.text ∧
      firstMember d.value key = found.map Doc.value ∧ ∀ inner ∈ found, S.Reads inner := by
  obtain ⟨c, text, htext, hblank, hbrace⟩ := text_head d
  cases d with
  | object members =>
    refine ⟨members.docs.lookup key, ?_, ?_, ?_⟩
    · rw [findTopLevelValue_members before after rfl h.members.names, members.lookup_decoded]
    · rw [Doc.value, firstMember, members.values_eq, lookup_map_snd]
    · intro inner hinner
      exact reads_of_mem h.members _ (lookup_mem hinner)
  | emptyObject gap =>
    have hmembers : (Doc.emptyObject gap).members (fun _ => none) = some [] := rfl
    have hnone := findTopLevelValue_members (S := S) before after hmembers (fun _ h => nomatch h) key
    exact ⟨none, hnone, rfl, fun inner hinner => by cases hinner⟩
  | null | bool b | number token | string s | emptyArray gap | array items =>
    refine ⟨none, ?_, rfl, fun inner hinner => by cases hinner⟩
    have hc : c ≠ '{' := fun heq => by cases hbrace heq
    rw [findTopLevelValue, skipWs_gap, htext, cons_append, skipWs_cons hblank, expect_of_ne hc]
    rfl

/-- The value `find_value_path` reaches: of repeated members the first one, and a dotted rest of the key may be the name of
a member at every level. -/
def firstPath : Nat → Json → Text → Option Json
  | dots, v, key => (firstMember v key).or <| match dots with
    | 0 => none
    | dots + 1 => (splitOnce '.' key).bind fun parts =>
      (firstMember v parts.1).bind fun inner => firstPath dots inner parts.2

theorem Serde.findValuePathUpTo_doc (dots : Nat) : ∀ (before after : Gap) {d : Doc}, S.Reads d → ∀ key,
    (S.findValuePathUpTo dots (before.val ++ (d.text ++ after.val)) key).bind S.fromStr = firstPath dots d.value key := by
  induction dots with
  | zero =>
    intro before after d h key
    obtain ⟨found, hfound, hfirst, hreads⟩ := findTopLevelValue_doc before after h key
    rw [findValuePathUpTo, firstPath, hfound, hfirst]
    cases found with
    | none => rfl
    | some inner => exact (hreads inner rfl).fromStr
  | succ dots ih =>
    intro before after d h key
    obtain ⟨found, hfound, hfirst, hreads⟩ := findTopLevelValue_doc before after h key
    rw [findValuePathUpTo, firstPath, hfound, hfirst]
    cases found with
    | some inner => exact (hreads inner rfl).fromStr
    | none =>
      simp only [Option.map_none, Option.none_or]
      cases hsplit : splitOnce '.' key with
      | none => rfl
      | some parts =>
        obtain ⟨found', hfound', hfirst', hreads'⟩ := findTopLevelValue_doc before after h parts.1
        simp only [bind_some, hfound', hfirst']
        cases found' with
        | none => rfl
        | some inner =>
          have hinner := ih ⟨[], rfl⟩ ⟨[], rfl⟩ (hreads' inner rfl) parts.2
          rw [nil_append, append_nil] at hinner
          exact hinner

theorem Serde.jsonAttrLookup_doc (before after : Gap) {d : Doc} (h : S.Reads d) (key : Text) :
    S.jsonAttrLookup (before.val ++ (d.text ++ after.val)) key = (firstPath key.length d.value key).bind S.cellText := by
  rw [← findValuePathUpTo_doc key.length before after h key]
  unfold jsonAttrLookup findValuePath
  rw [Option.bind_assoc]

end

/-! ## Texts of any form -/

theorem skipWs_suffix (t : Text) : skipWs t <:+ t := dropWhile_suffix _

theorem expect_eq_some {c : Char} {t rest : Text} (h : expect c t = some rest) : t = c :: rest := by
  cases t with
  | nil => nomatch h
  | cons d t =>
    obtain ⟨rfl, heq⟩ := Option.ite_none_right_eq_some.mp h
    cases heq
    rfl

theorem scanString_eq_some {t : Text} {r : Text × Text} (h : scanString t = some r) : t = r.1 ++ '"' :: r.2 := by
  fun_induction scanString t generalizing r with
  | case1 | case2 => nomatch h
  | case4 rest =>
    cases h
    rfl
  | case3 c rest ih | case5 c rest _ _ _ ih =>
    obtain ⟨r', hrest, rfl⟩ := map_eq_some_iff.mp h
    rw [ih hrest]
    rfl

theorem consumed_eq_some {part : Text} {o : Option (Text × Text)} {r : Text × Text} (h : consumed part o = some r) :
    ∃ r', o = some r' ∧ r.1 ++ r.2 = part ++ (r'.1 ++ r'.2) := by
  obtain ⟨r', hr', rfl⟩ := map_eq_some_iff.mp h
  exact ⟨r', hr', append_assoc ..⟩

theorem scanNested_eq_some {depth : Nat} {mode : ScanMode} {t : Text} {r : Text × Text}
    (h : scanNested depth mode t = some r) : t = r.1 ++ r.2 := by
  fun_induction scanNested depth mode t generalizing r with
  | case1 => nomatch h
  | case6 =>
    cases h
    rfl
  | _ =>
    rename_i ih
    obtain ⟨r', hr', heq⟩ := consumed_eq_some h
    rw [heq, ← ih hr']
    rfl

/-- A scanned value is a part of the text. -/
theorem scanValueEnd_eq_some {t : Text} {r : Text × Text} (h : scanValueEnd t = some r) : t = r.1 ++ r.2 := by
  cases t with
  | nil => nomatch h
  | cons c t =>
    rw [scanValueEnd] at h
    split at h
    · next hc =>
      obtain ⟨r', hr', rfl⟩ := map_eq_some_iff.mp h
      rw [scanString_eq_some hr', hc]
      simp
    · split at h
      · exact scanNested_eq_some h
      · dsimp only at h
        split at h
        · nomatch h
        · cases h
          exact (takeWhile_append_dropWhile (p := fun c => !isDelimiter c)).symm

variable {S : Serde} {key : Text}

theorem turn_suffix {t first second : Text} {name value : Text × Text} (hopen : expect '"' (skipWs t) = some first)
    (hname : scanString first = some name) (hcolon : expect ':' (skipWs name.2) = some second)
    (hvalue : scanValueEnd (skipWs second) = some value) :
    value.1 ++ value.2 <:+ t ∧ (value.1 ++ value.2).length < t.length := by
  have hfirst : '"' :: first <:+ t := expect_eq_some hopen ▸ skipWs_suffix t
  have hsecond : second <:+ first := by
    rw [scanString_eq_some hname]
    refine IsSuffix.trans ?_ (suffix_append_of_suffix (suffix_cons _ _))
    exact ((suffix_cons _ _).trans (expect_eq_some hcolon ▸ skipWs_suffix name.2))
  have hthird : value.1 ++ value.2 <:+ first := (scanValueEnd_eq_some hvalue ▸ skipWs_suffix second).trans hsecond
  refine ⟨(hthird.trans (suffix_cons _ _)).trans hfirst, ?_⟩
  have hlength := hfirst.length_le
  rw [length_cons] at hlength
  have := hthird.length_le
  omega

/-- What the loop returns is a part of the text. -/
theorem Serde.findMember_infix {fuel : Nat} {t v : Text} (h : S.findMember key fuel t = some v) : v <:+: t := by
  induction fuel generalizing t with
  | zero => nomatch h
  | succ fuel ih =>
    obtain ⟨first, hopen, h⟩ := bind_eq_some_iff.mp h
    obtain ⟨name, hname, h⟩ := bind_eq_some_iff.mp h
    obtain ⟨second, hcolon, h⟩ := bind_eq_some_iff.mp h
    obtain ⟨value, hvalue, h⟩ := bind_eq_some_iff.mp h
    have hsuffix := (turn_suffix hopen hname hcolon hvalue).1.isInfix
    split at h
    · cases h
      exact (prefix_append _ _).isInfix.trans hsuffix
    · obtain ⟨rest, hcomma, h⟩ := bind_eq_some_iff.mp h
      have hrest : rest <:+ value.2 := (suffix_cons _ _).trans (expect_eq_some hcomma ▸ skipWs_suffix value.2)
      exact (ih h).trans ((hrest.trans (suffix_append _ _)).isInfix.trans hsuffix)

/-- The number of members that are looked at is never what ends the loop. -/
theorem Serde.findMember_fuel (fuel more : Nat) {t : Text} (hfuel : t.length ≤ fuel) :
    S.findMember key (fuel + more) t = S.findMember key fuel t := by
  induction fuel generalizing t with
  | zero =>
    rw [length_eq_zero_iff.mp (Nat.le_zero.mp hfuel)]
    cases more <;> rfl
  | succ fuel ih =>
    rw [Nat.add_right_comm, findMember, findMember]
    refine bind_congr fun first hopen => bind_congr fun name hname => bind_congr fun second hcolon =>
      bind_congr fun value hvalue => ?_
    split
    · rfl
    · refine bind_congr fun rest hcomma => ih ?_
      have hturn := (turn_suffix hopen hname hcolon hvalue).2
      have hrest : rest <:+ value.2 := (suffix_cons _ _).trans (expect_eq_some hcomma ▸ skipWs_suffix value.2)
      have := hrest.length_le
      rw [length_append] at hturn
      omega

end LogLake
