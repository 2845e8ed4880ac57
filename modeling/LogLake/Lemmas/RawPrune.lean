import LogLake.Lemmas.Like
import LogLake.Lemmas.Tokens

/-! # The hints read off the filters, and the test that uses them -/

namespace LogLake

open List

/-! ## One filter -/

/-- The spec after the tokens of a match call of the given mode. -/
def RawPruneSpec.addTokens (spec : RawPruneSpec) (mode : MatchMode) (tokens : List Text) : RawPruneSpec :=
  match mode with
  | .allTerms | .phrase => { spec with allTerms := spec.allTerms ++ tokens, ftsUdf := true }
  | .anyTerm => { spec with anyTerms := spec.anyTerms ++ tokens, ftsUdf := true }
  | .prefixed => { spec with substrings := spec.substrings ++ tokens, ftsUdf := true }

/-- The spec after the inner part of a `LIKE` pattern. -/
def RawPruneSpec.addInner (spec : RawPruneSpec) (inner : Text) : RawPruneSpec :=
  { spec with substrings := spec.substrings ++ [inner], indexSubstrings := spec.indexSubstrings ++ [inner] }

/-- A call the extractor takes tokens from: a match function of the `raw` column with a literal query. -/
structure MatchCall (textTokenizers : Text → Option Tokenizer) (filter : Expr) where
  name : Text
  arg : Expr
  queryType : TextType
  query : Text
  tokenizer : Tokenizer
  mode : MatchMode
  filter_eq : filter = .scalarFunction name [arg, .literal (.text queryType query)]
  reads_raw : colName arg = some rawColumn
  tokenizer_eq : textTokenizers rawColumn = some tokenizer
  mode_eq : matchMode name = some mode
  tokens_ne_nil : tokenizer.tokenize query ≠ []

/-- A `LIKE` the extractor takes a substring from. -/
structure LikeCall (textTokenizers : Text → Option Tokenizer) (filter : Expr) where
  arg : Expr
  patternType : TextType
  pattern : Text
  inner : Text
  filter_eq : filter = .like false arg (.literal (.text patternType pattern)) none false
  reads_raw : colName arg = some rawColumn
  tokenizer_eq : textTokenizers rawColumn = some .default
  inner_eq : likeInner pattern = some inner
  long : trigramLen ≤ inner.length

variable {spec : RawPruneSpec}

theorem specAcceptsColumn_of_raw (h : spec.column = rawColumn) (column : Text) :
    specAcceptsColumn spec column = (spec, rawColumn == column) := by
  unfold specAcceptsColumn
  rw [h, if_neg (by decide)]

theorem litStr_eq_some {e : Expr} {s : Text} (h : litStr e = some s) : ∃ t, e = .literal (.text t s) := by
  unfold litStr at h
  split at h
  · exact ⟨_, by rw [Option.some.inj h]⟩
  · cases h

theorem addMatchTokens_eq (spec : RawPruneSpec) (name : Text) (tokens : List Text) :
    addMatchTokens spec (toAsciiLowercase name) tokens = (matchMode name).map fun mode => spec.addTokens mode tokens := by
  unfold addMatchTokens matchMode
  dsimp only
  split_ifs <;> rfl

variable {tok : Text → Option Tokenizer}

theorem extractMatchUdfPrune_cases {filter : Expr} {spec' : RawPruneSpec} {b : Bool}
    (hraw : spec.column = rawColumn) (h : extractMatchUdfPrune filter spec tok = .ok (spec', b)) :
    (b = false ∧ spec' = spec) ∨
      b = true ∧ ∃ call : MatchCall tok filter, spec' = spec.addTokens call.mode (call.tokenizer.tokenize call.query) := by
  unfold extractMatchUdfPrune at h
  split at h
  · next name arg0 arg1 =>
    split at h
    · left; simpa [eq_comm, and_comm] using h
    · next column hcol =>
      split at h
      · left; simpa [eq_comm, and_comm] using h
      · next tokenizer htok =>
        rw [specAcceptsColumn_of_raw hraw] at h
        split at h
        · next heq => left; simp only [Prod.mk.injEq] at heq; rw [← heq.1] at h; simpa [eq_comm, and_comm] using h
        · next heq =>
          simp only [Prod.mk.injEq, beq_iff_eq] at heq
          obtain ⟨rfl, rfl⟩ := heq
          split at h
          · left; simpa [eq_comm, and_comm] using h
          · next query hlit =>
            obtain ⟨t, rfl⟩ := litStr_eq_some hlit
            unfold tokenizeMatchQuery at h
            by_cases hnil : tokenizer.tokenize query = []
            · rw [if_pos hnil] at h; cases h
            · rw [if_neg hnil] at h
              dsimp only at h
              rw [addMatchTokens_eq] at h
              cases hmode : matchMode name with
              | none => rw [hmode] at h; left; simpa [eq_comm, and_comm] using h
              | some mode =>
                rw [hmode] at h
                simp only [Option.map_some, Except.ok.injEq, Prod.mk.injEq] at h
                exact .inr ⟨h.2.symm, ⟨name, arg0, t, query, tokenizer, mode, rfl, hcol, htok, hmode, hnil⟩, h.1.symm⟩
  · left; simpa [eq_comm, and_comm] using h

theorem extractLikePrune_cases (filter : Expr) (tok : Text → Option Tokenizer) (hraw : spec.column = rawColumn) :
    extractLikePrune filter spec tok = spec ∨
      ∃ call : LikeCall tok filter, extractLikePrune filter spec tok = spec.addInner call.inner := by
  unfold extractLikePrune
  split
  · next negated e pattern esc ci =>
    split
    · exact .inl rfl
    · next column hcol =>
      split
      · exact .inl rfl
      · next hflags =>
        split
        · exact .inl rfl
        · next tokenizer htok =>
          split
          · exact .inl rfl
          · next hdef =>
            rw [specAcceptsColumn_of_raw hraw]
            split
            · next heq => simp only [Prod.mk.injEq] at heq; exact .inl heq.1.symm
            · next heq =>
              simp only [Prod.mk.injEq, beq_iff_eq] at heq
              obtain ⟨rfl, rfl⟩ := heq
              split
              · exact .inl rfl
              · next inner hinner =>
                obtain ⟨p, hlit, hinner⟩ := Option.bind_eq_some_iff.mp hinner
                obtain ⟨t, rfl⟩ := litStr_eq_some hlit
                split
                · next hlong =>
                  simp only [Bool.or_eq_true, not_or, Bool.not_eq_true, Option.isSome_eq_false_iff,
                    Option.isNone_iff_eq_none] at hflags
                  obtain ⟨⟨rfl, rfl⟩, rfl⟩ := hflags
                  rw [ne_eq, not_not] at hdef
                  subst hdef
                  exact .inr ⟨⟨e, t, p, inner, rfl, hcol, htok, hinner, hlong⟩, rfl⟩
                · exact .inl rfl
  · exact .inl rfl

/-! ## Support -/

/-- A set of trigrams supports a spec: it has all trigrams of every term and substring that must occur, and all those
of one of the alternative terms when there are any. -/
structure RawPruneSpec.SupportedBy (spec : RawPruneSpec) (grams : List Text) : Prop where
  allTerms : ∀ t ∈ spec.allTerms, trigrams t ⊆ grams
  anyTerms : spec.anyTerms = [] ∨ ∃ t ∈ spec.anyTerms, trigrams t ⊆ grams
  substrings : ∀ t ∈ spec.substrings, trigrams t ⊆ grams

theorem supportedBy_default (grams : List Text) : RawPruneSpec.SupportedBy {} grams :=
  ⟨by simp, Or.inl rfl, by simp⟩

/-- What the tokens of a match call need of the trigrams of a row, by mode. -/
def MatchMode.Supports (grams : List Text) (tokens : List Text) : MatchMode → Prop
  | .allTerms | .phrase | .prefixed => ∀ t ∈ tokens, trigrams t ⊆ grams
  | .anyTerm => ∃ t ∈ tokens, trigrams t ⊆ grams

variable {grams : List Text}

theorem RawPruneSpec.SupportedBy.addTokens {tokens : List Text} {mode : MatchMode}
    (h : spec.SupportedBy grams) (hmode : mode.Supports grams tokens) : (spec.addTokens mode tokens).SupportedBy grams := by
  have hall : ∀ {l : List Text}, (∀ t ∈ l, trigrams t ⊆ grams) → (∀ t ∈ tokens, trigrams t ⊆ grams) →
      ∀ t ∈ l ++ tokens, trigrams t ⊆ grams := by
    intro l hl ht t hmem
    exact (mem_append.mp hmem).elim (hl t) (ht t)
  cases mode with
  | allTerms | phrase => exact ⟨hall h.allTerms hmode, h.anyTerms, h.substrings⟩
  | prefixed => exact ⟨h.allTerms, h.anyTerms, hall h.substrings hmode⟩
  | anyTerm =>
    obtain ⟨t, ht, hsub⟩ := hmode
    exact ⟨h.allTerms, Or.inr ⟨t, mem_append_right _ ht, hsub⟩, h.substrings⟩

theorem RawPruneSpec.SupportedBy.addInner {inner : Text}
    (h : spec.SupportedBy grams) (hinner : trigrams inner ⊆ grams) : (spec.addInner inner).SupportedBy grams := by
  refine ⟨h.allTerms, h.anyTerms, ?_⟩
  intro t ht
  rcases mem_append.mp ht with ht | ht
  · exact h.substrings t ht
  · rw [mem_singleton.mp ht]; exact hinner

/-- A filter's hints are supported by a set of trigrams. -/
structure HintsSupported (tok : Text → Option Tokenizer) (filter : Expr) (grams : List Text) : Prop where
  ofMatch : ∀ call : MatchCall tok filter, call.mode.Supports grams (call.tokenizer.tokenize call.query)
  ofLike : ∀ call : LikeCall tok filter, trigrams call.inner ⊆ grams

@[simp] theorem RawPruneSpec.addTokens_column (spec : RawPruneSpec) (mode : MatchMode) (tokens : List Text) :
    (spec.addTokens mode tokens).column = spec.column := by
  cases mode <;> rfl

theorem extractStep_supported {filter : Expr} {spec' : RawPruneSpec} {b : Bool} (hraw : spec.column = rawColumn)
    (hs : spec.SupportedBy grams) (hf : HintsSupported tok filter grams) (h : extractMatchUdfPrune filter spec tok = .ok (spec', b)) :
    (spec'.column = rawColumn ∧ spec'.SupportedBy grams) ∧
      ((extractLikePrune filter spec' tok).column = rawColumn ∧ (extractLikePrune filter spec' tok).SupportedBy grams) := by
  have hspec : spec'.column = rawColumn ∧ spec'.SupportedBy grams := by
    rcases extractMatchUdfPrune_cases hraw h with ⟨-, rfl⟩ | ⟨-, call, rfl⟩
    · exact ⟨hraw, hs⟩
    · exact ⟨by rw [RawPruneSpec.addTokens_column, hraw], hs.addTokens (hf.ofMatch call)⟩
  refine ⟨hspec, ?_⟩
  rcases extractLikePrune_cases filter tok hspec.1 with heq | ⟨call, heq⟩
  · rw [heq]; exact hspec
  · rw [heq]; exact ⟨hspec.1, hspec.2.addInner (hf.ofLike call)⟩

theorem extractRawPruneLoop_supported :
    ∀ {filters : List Expr} {spec spec' : RawPruneSpec}, spec.column = rawColumn → spec.SupportedBy grams →
      (∀ f ∈ filters, HintsSupported tok f grams) → extractRawPruneLoop tok filters spec = .ok spec' →
      spec'.column = rawColumn ∧ spec'.SupportedBy grams := by
  intro filters
  induction filters with
  | nil =>
    intro spec spec' hraw hs _ h
    rw [extractRawPruneLoop, Except.ok.injEq] at h
    exact h ▸ ⟨hraw, hs⟩
  | cons f filters ih =>
    intro spec spec' hraw hs hf h
    rw [extractRawPruneLoop] at h
    have hrest : ∀ g ∈ filters, HintsSupported tok g grams := fun g hg => hf g (mem_cons_of_mem f hg)
    cases hstep : extractMatchUdfPrune f spec tok with
    | error e => rw [hstep] at h; cases h
    | ok r =>
      obtain ⟨spec₁, b⟩ := r
      obtain ⟨hmatch, hlike⟩ := extractStep_supported hraw hs (hf f mem_cons_self) hstep
      rw [hstep] at h
      cases b with
      | true => exact ih hmatch.1 hmatch.2 hrest h
      | false => exact ih hlike.1 hlike.2 hrest h

/-- The hint extracted from filters is supported by their trigrams. -/
theorem extractRawPruneSpec_supported {filters : List Expr} (hf : ∀ f ∈ filters, HintsSupported tok f grams)
    (h : extractRawPruneSpec filters tok = .ok (some spec)) : spec.column = rawColumn ∧ spec.SupportedBy grams := by
  unfold extractRawPruneSpec at h
  cases hloop : extractRawPruneLoop tok filters {} with
  | error e => rw [hloop] at h; cases h
  | ok spec₀ =>
    obtain ⟨hraw, hs⟩ := extractRawPruneLoop_supported rfl (supportedBy_default grams) hf hloop
    rw [hloop, Except.map, Except.ok.injEq] at h
    unfold normalizeRawPruneSpec at h
    dsimp only at h
    split at h
    · cases h
    · rw [Option.some.injEq] at h
      subst h
      refine ⟨hraw, fun t ht => hs.allTerms t (mem_sortDedup.mp ht), ?_, fun t ht => hs.substrings t (mem_sortDedup.mp ht)⟩
      rcases hs.anyTerms with hnil | ⟨t, ht, hsub⟩
      · left; dsimp only; rw [hnil]; rfl
      · exact .inr ⟨t, mem_sortDedup.mpr ht, hsub⟩

/-! ## The test -/

variable {maybeContains : Text → Bool}

theorem mightMatch_some_iff {value : Text} :
    mightMatch (some maybeContains) value = true ↔ ∀ g ∈ trigrams value, maybeContains g = true := by
  unfold mightMatch bloomMightContainSubstring
  rw [Option.bind_some]
  cases hq : queryTrigrams value with
  | none =>
    have hnil : trigrams value = [] := by
      unfold queryTrigrams at hq
      split at hq
      · assumption
      · cases hq
    simp [hnil]
  | some grams =>
    simp only [Option.map_some, Option.getD_some, all_eq_true]
    exact forall_congr' fun g => by rw [mem_queryTrigrams hq]

/-- A supported hint passes every row that has the trigrams. -/
theorem RawPruneSpec.SupportedBy.passes
    (hraw : spec.column = rawColumn) (hs : spec.SupportedBy grams) (hm : ∀ g ∈ grams, maybeContains g = true) :
    fileMightMatchPruneSpec (some maybeContains) spec = true ∧ rowgroupMightMatch spec maybeContains = true := by
  have hall : ∀ t, trigrams t ⊆ grams → mightMatch (some maybeContains) t = true :=
    fun t ht => mightMatch_some_iff.mpr fun g hg => hm g (ht hg)
  have hany : (spec.anyTerms.isEmpty || spec.anyTerms.any (mightMatch (some maybeContains))) = true := by
    rcases hs.anyTerms with hnil | ⟨t, ht, hsub⟩
    · rw [hnil]; rfl
    · rw [Bool.or_eq_true, any_eq_true]
      exact .inr ⟨t, ht, hall t hsub⟩
  have hterms : spec.allTerms.all (mightMatch (some maybeContains)) = true :=
    all_eq_true.mpr fun t ht => hall t (hs.allTerms t ht)
  have hsubs : spec.substrings.all (mightMatch (some maybeContains)) = true :=
    all_eq_true.mpr fun t ht => hall t (hs.substrings t ht)
  constructor
  · unfold fileMightMatchPruneSpec
    rw [if_pos hraw]
    dsimp only
    rw [hterms, hany, hsubs]
    rfl
  · unfold rowgroupMightMatch
    rw [all_append, hterms, hsubs, hany]
    rfl

end LogLake
