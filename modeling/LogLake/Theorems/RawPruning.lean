import LogLake.Lemmas.RawPrune

/-! # Pruning by trigrams keeps the rows the filters ask for -/

namespace LogLake

open Option List
open Engine (eval)

/-! ## Rows, filters and the property -/

abbrev EventRow : Type := {row : Row // row rawColumn = .null ∨ ∃ t, row rawColumn = .text t}

/-- The trigrams a row adds to the filters of its file and row group. -/
def EventRow.grams (row : EventRow) : List Text :=
  match row.1 rawColumn with
  | .text t => trigrams t
  | _ => []

def rowsGrams (rows : List EventRow) : List Text := rows.flatMap EventRow.grams

/-- What the engine documents about casts between string types. -/
structure Engine.TextCasts (E : Engine) : Prop where
  cast_null : ∀ t, E.cast t .null = .null
  cast_text : ∀ t s, E.cast (.text t) (.text s) = .text s

/-- A membership test that denies none of the given trigrams. -/
abbrev TrigramFilter (grams : List Text) : Type := {maybeContains : Text → Bool // ∀ g ∈ grams, maybeContains g = true}

/-- A token bloom, of any size, with the trigrams inserted. -/
def TrigramFilter.ofBloom (bloom : TokenBloom) (grams : List Text) : TrigramFilter grams :=
  ⟨(bloom.insertAll grams).maybeContains, fun _ hg => bloom.maybeContains_insertAll hg⟩

def TrigramFilter.exact (grams : List Text) : TrigramFilter grams :=
  ⟨fun g => grams.contains g, fun _ hg => contains_iff_mem.mpr hg⟩

/-- The tests keep a matching row: for every file, given by its row groups, and every row of it on which all filters
are TRUE, the file passes with the filter `make` builds from its trigrams, and so does the row's group. -/
def PruningKeeps (E : Engine) (tok : Text → Option Tokenizer) (filters : List Expr)
    (make : (grams : List Text) → TrigramFilter grams) : Prop :=
  ∀ spec, extractRawPruneSpec filters tok = .ok (some spec) →
    ∀ (groups : List (List EventRow)) (i : Nat) (group : List EventRow) (row : EventRow),
      groups[i]? = some group → row ∈ group → (∀ f ∈ filters, (E.withMatchUdfs tok).IsTrue row.1 f) →
        fileMightMatchPruneSpec (some (make (rowsGrams groups.flatten)).1) spec = true ∧
        ∃ survivors, rowgroupBloomSurvivorsForSpec (groups.map fun g => (make (rowsGrams g)).1) groups.length spec =
          some survivors ∧ i ∈ survivors

def ReadsText : Expr → Prop
  | .column _ => True
  | .alias e _ => ReadsText e
  | .cast e (.text _) => ReadsText e
  | _ => False

def ReadsRawAsText : Expr → Prop
  | .scalarFunction _ (arg :: _) => colName arg = some rawColumn → ReadsText arg
  | .like _ e _ _ _ => colName e = some rawColumn → ReadsText e
  | _ => True

def SameTrigrams (tokens : List Text) : Prop := ∀ s ∈ tokens, ∀ t ∈ tokens, trigrams s ⊆ trigrams t

/-- The hint taken from the filter asks for no more trigrams than the filter does. -/
structure PatternSafe (tok : Text → Option Tokenizer) (filter : Expr) : Prop where
  ofPrefix : ∀ call : MatchCall tok filter, call.mode = .prefixed → SameTrigrams (call.tokenizer.tokenize call.query)
  ofLike : ∀ call : LikeCall tok filter, trigrams call.inner ⊆ trigrams (literalText call.pattern)

/-! ## A filter that is TRUE supports its hints -/

variable {E : Engine}

theorem Engine.eval_of_readsText (hE : E.TextCasts) {row : Row} {c : Text} {e : Expr}
    (hrow : row c = .null ∨ ∃ t, row c = .text t) (hreads : ReadsText e) (hcol : colName e = some c) :
    E.eval row e = row c := by
  fun_induction colName e with
  | case1 name => rw [eval, some.inj hcol]
  | case2 e t ih =>
    cases t with
    | text t =>
      rw [eval, ih hreads hcol]
      rcases hrow with hnull | ⟨s, hs⟩
      · rw [hnull]; exact hE.cast_null _
      · rw [hs]; exact hE.cast_text t s
    | _ => exact absurd hreads id
  | case3 e name ih => rw [eval]; exact ih hreads hcol
  | case4 e => cases hcol

theorem mem_of_phraseMatches {cellTokens queryTokens : List Text} (h : phraseMatches cellTokens queryTokens = true) :
    ∀ t ∈ queryTokens, t ∈ cellTokens := by
  intro t ht
  unfold phraseMatches at h
  split at h
  · cases h
  · obtain ⟨w, hw, heq⟩ := List.any_eq_true.mp h
    rw [beq_iff_eq] at heq
    subst heq
    have hpos : 0 < w.length := length_pos_of_mem ht
    exact ((mem_windows hpos).mp hw).1.subset ht

theorem supports_of_matchRaw {mode : MatchMode} {tokenizer : Tokenizer} {raw : Text} {tokens : List Text}
    (hsame : mode = .prefixed → SameTrigrams tokens) (h : matchRaw mode tokenizer raw tokens = true) :
    mode.Supports (trigrams raw) tokens := by
  have hcell : ∀ t ∈ tokenizer.tokenize raw, trigrams t ⊆ trigrams raw :=
    fun t ht => trigrams_subset_of_mem_tokenize ht infix_rfl
  unfold matchRaw at h
  cases mode with
  | allTerms =>
    intro t ht
    exact hcell t (contains_iff_mem.mp (List.all_eq_true.mp h t ht))
  | anyTerm =>
    obtain ⟨t, ht, hmem⟩ := List.any_eq_true.mp h
    exact ⟨t, ht, hcell t (contains_iff_mem.mp hmem)⟩
  | phrase =>
    intro t ht
    exact hcell t (mem_of_phraseMatches h t ht)
  | prefixed =>
    obtain ⟨cell, hmem, hany⟩ := List.any_eq_true.mp h
    obtain ⟨start, hstart, hpre⟩ := List.any_eq_true.mp hany
    have hin : start <:+: cell := ( isPrefixOf_iff_prefix.mp hpre).isInfix
    intro t ht
    exact List.Subset.trans (hsame rfl t ht start hstart) (trigrams_subset_of_mem_tokenize hmem hin)

variable {tok : Text → Option Tokenizer} {filter : Expr}

theorem MatchCall.eval_filter (call : MatchCall tok filter)
    (hE : E.TextCasts) (hreads : ReadsRawAsText filter) (row : EventRow) : (E.withMatchUdfs tok).eval row.1 filter =
      matchUdf call.mode call.tokenizer [row.1 rawColumn, .text call.query] := by
  have hE' : (E.withMatchUdfs tok).TextCasts := { hE with }
  have hcol : (E.withMatchUdfs tok).eval row.1 call.arg = row.1 rawColumn := by
    rw [call.filter_eq] at hreads
    exact Engine.eval_of_readsText hE' row.2 (hreads call.reads_raw) call.reads_raw
  have htok : argTokenizer tok [call.arg, .literal (.text call.queryType call.query)] = call.tokenizer := by
    simp [argTokenizer, call.reads_raw, call.tokenizer_eq]
  conv_lhs => rw [call.filter_eq, eval, Engine.withMatchUdfs_call call.mode_eq, htok]
  rw [Engine.evalList_eq_map, map_cons, map_cons, map_nil, hcol, eval]
  rfl

theorem LikeCall.eval_filter (call : LikeCall tok filter)
    (hE : E.TextCasts) (hreads : ReadsRawAsText filter) (row : EventRow) : (E.withMatchUdfs tok).eval row.1 filter =
      .ofTruth ((E.withMatchUdfs tok).like none false (row.1 rawColumn) (.text call.pattern)) := by
  have hE' : (E.withMatchUdfs tok).TextCasts := { hE with }
  have hcol : (E.withMatchUdfs tok).eval row.1 call.arg = row.1 rawColumn := by
    rw [call.filter_eq] at hreads
    exact Engine.eval_of_readsText hE' row.2 (hreads call.reads_raw) call.reads_raw
  conv_lhs => rw [call.filter_eq, eval, hcol, eval]
  rfl

theorem hintsSupported_of_isTrue (hE : E.TextCasts)
    {row : EventRow} (hreads : ReadsRawAsText filter) (hsafe : PatternSafe tok filter)
    (htrue : (E.withMatchUdfs tok).IsTrue row.1 filter) : HintsSupported tok filter row.grams := by
  unfold Engine.IsTrue at htrue
  constructor
  · intro call
    rw [call.eval_filter hE hreads] at htrue
    unfold EventRow.grams
    rcases row.2 with hnull | ⟨t, ht⟩
    · rw [hnull, matchUdf_null call.tokens_ne_nil] at htrue
      cases htrue
    · rw [ht, matchUdf_text call.tokens_ne_nil] at htrue
      rw [ht]
      exact supports_of_matchRaw (hsafe.ofPrefix call) (some.inj htrue)
  · intro call
    rw [call.eval_filter hE hreads, Value.truth_ofTruth] at htrue
    unfold EventRow.grams
    rcases row.2 with hnull | ⟨t, ht⟩
    · rw [hnull] at htrue; cases htrue
    · rw [ht] at htrue ⊢
      have hmatch : likeMatch (parseLike '\\' call.pattern) t = true := some.inj htrue
      have hin := literalText_infix_of_likeMatch call.inner_eq hmatch
      exact List.Subset.trans (hsafe.ofLike call) (trigrams_subset (isInfix_toAsciiLowercase hin))

/-! ## Safe filters keep every matching row -/

theorem mem_rowsGrams_of_mem {rows : List EventRow} {row : EventRow} (h : row ∈ rows) {g : Text} (hg : g ∈ row.grams) :
    g ∈ rowsGrams rows := mem_flatMap.mpr ⟨row, h, hg⟩

theorem mem_survivors {spec : RawPruneSpec} {blooms : List (Text → Bool)} {n i : Nat} {m : Text → Bool}
    (hraw : spec.column = rawColumn) (hlen : blooms.length = n) (hi : blooms[i]? = some m)
    (hm : rowgroupMightMatch spec m = true) :
    ∃ survivors, rowgroupBloomSurvivorsForSpec blooms n spec = some survivors ∧ i ∈ survivors := by
  unfold rowgroupBloomSurvivorsForSpec
  rw [if_neg (not_not.mpr hraw), if_neg (not_not.mpr hlen)]
  refine ⟨_, rfl, mem_filterMap.mpr ⟨(m, i), mem_zipIdx_iff_getElem?.mpr hi, ?_⟩⟩
  exact if_pos hm

theorem pruningKeeps_of_safe (hE : E.TextCasts) {filters : List Expr}
    (hsafe : ∀ f ∈ filters, ReadsRawAsText f ∧ PatternSafe tok f) (make : (grams : List Text) → TrigramFilter grams) :
    PruningKeeps E tok filters make := by
  intro spec hspec groups i group row hgroup hrow htrue
  have hsupp : ∀ f ∈ filters, HintsSupported tok f row.grams :=
    fun f hf => hintsSupported_of_isTrue hE (hsafe f hf).1 (hsafe f hf).2 (htrue f hf)
  obtain ⟨hraw, hs⟩ := extractRawPruneSpec_supported hsupp hspec
  have hfile : ∀ g ∈ row.grams, (make (rowsGrams groups.flatten)).1 g = true := fun g hg =>
    (make _).2 g (mem_rowsGrams_of_mem (mem_flatten.mpr ⟨group, mem_of_getElem? hgroup, hrow⟩) hg)
  have hgrp : ∀ g ∈ row.grams, (make (rowsGrams group)).1 g = true := fun g hg =>
    (make _).2 g (mem_rowsGrams_of_mem hrow hg)
  refine ⟨(hs.passes hraw hfile).1, mem_survivors hraw (length_map ..) ?_ (hs.passes hraw hgrp).2⟩
  rw [getElem?_map, hgroup]
  rfl

/-! ## An unsafe filter drops a matching row -/

variable (t : Text)

/-- A row whose `raw` column holds the text and whose other columns are NULL. -/
def rawRow : EventRow :=
  ⟨fun c => if c = rawColumn then .text t else .null, Or.inr ⟨t, if_pos rfl⟩⟩

@[simp] theorem rawRow_raw : (rawRow t).1 rawColumn = .text t := by simp [rawRow]

@[simp] theorem rawRow_grams : (rawRow t).grams = trigrams t := by
  unfold EventRow.grams
  rw [rawRow_raw]

theorem extractMatchUdfPrune_of_call (call : MatchCall tok filter) : extractMatchUdfPrune filter {} tok =
      .ok (RawPruneSpec.addTokens {} call.mode (call.tokenizer.tokenize call.query), true) := by
  have hacc : specAcceptsColumn {} rawColumn = ({}, true) := by decide
  have hquery : tokenizeMatchQuery call.name call.tokenizer call.query = .ok (call.tokenizer.tokenize call.query) :=
    if_neg call.tokens_ne_nil
  conv_lhs => rw [call.filter_eq]
  simp only [extractMatchUdfPrune, call.reads_raw, call.tokenizer_eq, hacc, litStr, hquery, addMatchTokens_eq,
    call.mode_eq, map_some]

theorem extractRawPruneLoop_of_like (call : LikeCall tok filter) :
    extractRawPruneLoop tok [filter] {} = .ok (RawPruneSpec.addInner {} call.inner) := by
  have hacc : specAcceptsColumn {} rawColumn = ({}, true) := by decide
  conv_lhs => rw [call.filter_eq]
  simp only [extractRawPruneLoop, extractMatchUdfPrune, extractLikePrune, call.reads_raw, call.tokenizer_eq, hacc,
    litStr, bind_some, call.inner_eq, if_pos call.long, RawPruneSpec.addInner]
  rfl

theorem trigrams_subset_of_keeps {spec : RawPruneSpec}
    {s t : Text} (hkeeps : PruningKeeps E tok [filter] TrigramFilter.exact)
    (hloop : extractRawPruneLoop tok [filter] {} = .ok spec) (hraw : spec.column = rawColumn) (hs : s ∈ spec.substrings)
    (htrue : (E.withMatchUdfs tok).IsTrue (rawRow t).1 filter) : trigrams s ⊆ trigrams t := by
  have hmem : s ∈ spec.substrings.sortDedup := mem_sortDedup.mpr hs
  have hspec : ∃ spec', extractRawPruneSpec [filter] tok = .ok (some spec') ∧ spec'.column = rawColumn ∧
      s ∈ spec'.substrings := by
    unfold extractRawPruneSpec
    rw [hloop, Except.map]
    unfold normalizeRawPruneSpec
    dsimp only
    rw [if_neg]
    · exact ⟨_, rfl, hraw, hmem⟩
    · intro hempty
      simp only [RawPruneSpec.isEmpty, Bool.and_eq_true, List.isEmpty_iff] at hempty
      rw [hempty.1.2] at hmem
      cases hmem
  obtain ⟨spec', hextract, hraw', hs'⟩ := hspec
  have hfile := (hkeeps spec' hextract [[rawRow t]] 0 [rawRow t] (rawRow t) rfl mem_cons_self
    (fun f hf => by rw [mem_singleton.mp hf]; exact htrue)).1
  unfold fileMightMatchPruneSpec at hfile
  rw [if_pos hraw'] at hfile
  simp only [Bool.and_eq_true, List.all_eq_true] at hfile
  intro g hg
  have hcontains := mightMatch_some_iff.mp (hfile.2 s hs') g hg
  have hgrams : rowsGrams ([[rawRow t]] : List (List EventRow)).flatten = trigrams t := by
    simp [rowsGrams]
  rw [hgrams] at hcontains
  exact contains_iff_mem.mp hcontains

theorem mem_trigrams_concat {t g : Text} {d : Char} (hd : d.toLower = d) (hg : g ∈ trigrams (t ++ [d])) :
    g ∈ trigrams t ∨ g.getLast? = some d := by
  obtain ⟨hin, hlen⟩ := mem_trigrams.mp hg
  rw [toAsciiLowercase_append] at hin
  have hsingle : toAsciiLowercase [d] = [d] := by rw [toAsciiLowercase_cons, hd, toAsciiLowercase_nil]
  rw [hsingle, infix_concat_iff] at hin
  rcases hin with hsuf | hin
  · right
    have hne : g ≠ [] := by
      rintro rfl
      simp [trigramLen] at hlen
    obtain ⟨init, c, rfl⟩ := (eq_nil_or_concat' g).resolve_left hne
    obtain ⟨r, hr⟩ := hsuf
    have hlast := congrArg getLast? hr
    rw [← append_assoc, getLast?_concat, getLast?_concat] at hlast
    rw [getLast?_concat, hlast]
  · exact .inl (mem_trigrams.mpr ⟨hin, hlen⟩)

theorem sameTrigrams_of_keeps (hE : E.TextCasts)
    (hreads : ReadsRawAsText filter) (hkeeps : PruningKeeps E tok [filter] TrigramFilter.exact)
    (call : MatchCall tok filter) (hmode : call.mode = .prefixed) : SameTrigrams (call.tokenizer.tokenize call.query) := by
  intro s hs t ht g hg
  by_contra hnot
  have hne : call.tokenizer ≠ .raw := by
    intro hr
    rw [hr] at hs ht
    rw [mem_singleton.mp hs, ← mem_singleton.mp ht] at hg
    exact hnot hg
  obtain ⟨htext, hlen⟩ := isTokenText_of_mem_tokenize hne ht
  -- A digit that is not the trigram's last character, so that appending it to `t` does not create the trigram.
  obtain ⟨d, hd, hlast⟩ : ∃ d : Char, (d = '0' ∨ d = '1') ∧ g.getLast? ≠ some d := by
    by_cases h0 : g.getLast? = some '0'
    · exact ⟨'1', Or.inr rfl, by rw [h0]; decide⟩
    · exact ⟨'0', Or.inl rfl, h0⟩
  have htokens := tokenize_concat_digit hne htext hlen hd
  have hmatch : matchRaw call.mode call.tokenizer (t ++ [d]) (call.tokenizer.tokenize call.query) = true := by
    rw [hmode, matchRaw, htokens, any_cons, any_nil, Bool.or_false, List.any_eq_true]
    exact ⟨t, ht, isPrefixOf_iff_prefix.mpr (prefix_append t [d])⟩
  have htrue : (E.withMatchUdfs tok).IsTrue (rawRow (t ++ [d])).1 filter := by
    unfold Engine.IsTrue
    rw [call.eval_filter hE hreads, rawRow_raw, matchUdf_text call.tokens_ne_nil, hmatch]
    rfl
  have hloop : extractRawPruneLoop tok [filter] {} =
      .ok (RawPruneSpec.addTokens {} call.mode (call.tokenizer.tokenize call.query)) := by
    rw [extractRawPruneLoop, extractMatchUdfPrune_of_call call]
    rfl
  have hsub : trigrams s ⊆ trigrams (t ++ [d]) := by
    refine trigrams_subset_of_keeps hkeeps hloop (RawPruneSpec.addTokens_column ..) ?_ htrue
    rw [hmode]
    exact hs
  have hdl : d.toLower = d := by rcases hd with rfl | rfl <;> decide
  rcases mem_trigrams_concat hdl (hsub hg) with h | h
  · exact hnot h
  · exact hlast h

theorem literalText_of_keeps (hE : E.TextCasts)
    (hreads : ReadsRawAsText filter) (hkeeps : PruningKeeps E tok [filter] TrigramFilter.exact)
    (call : LikeCall tok filter) : trigrams call.inner ⊆ trigrams (literalText call.pattern) := by
  have htrue : (E.withMatchUdfs tok).IsTrue (rawRow (literalText call.pattern)).1 filter := by
    unfold Engine.IsTrue
    rw [call.eval_filter hE hreads, rawRow_raw, Value.truth_ofTruth]
    exact congrArg some (likeMatch_literalText call.inner_eq)
  exact trigrams_subset_of_keeps hkeeps (extractRawPruneLoop_of_like call) rfl
    (mem_append_right _ mem_cons_self) htrue

/-! ## When pruning keeps matching rows -/

/-- The bloom test keeps every matching row for every list of safe filters and blooms of every size; and for a filter
that reads `raw` as text, safety is exactly what is needed for the test to keep matching rows with every filter that
denies no trigram of the rows. -/
theorem pruningKeeps_iff_patternSafe (E : Engine) (hE : E.TextCasts) (tok : Text → Option Tokenizer) :
    (∀ filters, (∀ f ∈ filters, ReadsRawAsText f ∧ PatternSafe tok f) →
      ∀ bloom, PruningKeeps E tok filters (TrigramFilter.ofBloom bloom)) ∧
    ∀ f, ReadsRawAsText f → ((∀ make, PruningKeeps E tok [f] make) ↔ PatternSafe tok f) := by
  refine ⟨fun filters hsafe bloom => pruningKeeps_of_safe hE hsafe _, fun f hreads => ⟨?_, ?_⟩⟩
  · intro hkeeps
    have hexact := hkeeps TrigramFilter.exact
    exact ⟨fun call hmode => sameTrigrams_of_keeps hE hreads hexact call hmode,
      fun call => literalText_of_keeps hE hreads hexact call⟩
  · intro hsafe make
    refine pruningKeeps_of_safe hE (fun g hg => ?_) make
    rw [mem_singleton.mp hg]
    exact ⟨hreads, hsafe⟩

def stringEngine : Engine where
  cast
    | .text _, .text s => .text s
    | _, _ => .null
  call _ _ _ := .null
  arith _ _ _ := .null
  negate _ := .null
  mixed _ _ := none
  ilike _ _ _ := false
  other _ _ := .null

theorem stringEngine_textCasts : stringEngine.TextCasts := ⟨fun t => by cases t <;> rfl, fun _ _ => rfl⟩

def prefixFilter (query : Text) : Expr :=
  .scalarFunction "match_prefix".toList [.column rawColumn, .literal (.text .utf8 query)]

def smallBloom : TokenBloom := TokenBloom.empty 64 1 (by decide) (by decide)

/-- A prefix match with one token is safe, so the bloom test keeps its rows. -/
theorem pruningKeeps_single_prefix : stringEngine.TextCasts ∧
    PruningKeeps stringEngine (fun _ => some .default) [prefixFilter "time".toList] (TrigramFilter.ofBloom smallBloom) := by
  refine ⟨stringEngine_textCasts,
    (pruningKeeps_iff_patternSafe stringEngine stringEngine_textCasts _).1 _ (fun f hf => ?_) smallBloom⟩
  rw [mem_singleton.mp hf]
  refine ⟨fun _ => trivial, ⟨fun call _ => ?_, fun call => absurd call.filter_eq (by simp [prefixFilter])⟩⟩
  have hfilter := call.filter_eq
  simp only [prefixFilter, Expr.scalarFunction.injEq, cons.injEq, Expr.literal.injEq, ScalarValue.text.injEq] at hfilter
  rw [← hfilter.2.2.1.2, ← some.inj call.tokenizer_eq]
  unfold SameTrigrams
  decide

/-- The row `foobaz` makes `match_prefix(raw, 'foo bar')` TRUE, and the bloom of its trigrams does not pass the test. -/
theorem prefix_match_drops_row :
    (stringEngine.withMatchUdfs fun _ => some .default).IsTrue (rawRow "foobaz".toList).1 (prefixFilter "foo bar".toList) ∧
      ¬ PruningKeeps stringEngine (fun _ => some .default) [prefixFilter "foo bar".toList]
        (TrigramFilter.ofBloom smallBloom) := by
  have htrue : (stringEngine.withMatchUdfs fun _ => some .default).IsTrue (rawRow "foobaz".toList).1
      (prefixFilter "foo bar".toList) := by
    unfold Engine.IsTrue
    decide +kernel
  refine ⟨htrue, fun hkeeps => ?_⟩
  have hspec : extractRawPruneSpec [prefixFilter "foo bar".toList] (fun _ => some .default) =
      .ok (some { substrings := ["bar".toList, "foo".toList], ftsUdf := true }) := by rfl
  have hfile := (hkeeps _ hspec [[rawRow "foobaz".toList]] 0 [rawRow "foobaz".toList] (rawRow "foobaz".toList) rfl
    mem_cons_self (fun f hf => by rw [mem_singleton.mp hf]; exact htrue)).1
  revert hfile
  decide +kernel

end LogLake
