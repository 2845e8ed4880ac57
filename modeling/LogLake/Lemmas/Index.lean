import LogLake.Index
import LogLake.Lemmas.Bloom

/-! # What an index holds -/

namespace LogLake

open List
open UInt32 (ofNat ofNat_add)

/-- The postings hold `ordinal` under `term`. -/
def Posted (postings : SortedMap Text (List UInt32)) (term : Text) (ordinal : UInt32) : Prop :=
  ∃ rows, (term, rows) ∈ postings.entries ∧ ordinal ∈ rows

variable {postings : SortedMap Text (List UInt32)} {r : UInt32} {term : Text}

theorem posted_pushPosting {ordinal : UInt32} {token : Text} :
    Posted (pushPosting ordinal postings token) term r ↔ Posted postings term r ∨ (term = token ∧ r = ordinal) := by
  simp only [Posted, pushPosting, SortedMap.mem_entries_upsert]
  by_cases ht : term = token
  · subst ht
    simp only [true_and, ne_eq, not_true_eq_false, false_and, or_false, exists_eq_left, mem_append,
      mem_singleton, ← SortedMap.get?_eq_some_iff]
    cases hg : postings.get? term <;> simp
  · simp [ht]

theorem posted_foldl_pushPosting {tokens : List Text} {ordinal : UInt32} : Posted (tokens.foldl (pushPosting ordinal) postings) term r ↔
      Posted postings term r ∨ (term ∈ tokens ∧ r = ordinal) := by
  induction tokens generalizing postings with
  | nil => simp
  | cons token tokens ih =>
    rw [foldl_cons, ih, posted_pushPosting, mem_cons]
    tauto

theorem posted_pushRow {b : IndexBuilder} {raw : Text} : Posted (b.pushRow raw).postings term r ↔
      Posted b.postings term r ∨ (term ∈ b.tokenizer.tokenize raw ∧ r = b.nRows) := by
  rw [IndexBuilder.pushRow, posted_foldl_pushPosting, mem_sortDedup]

variable {rows : List Text}

theorem posted_foldl_pushRow {b : IndexBuilder} :
    Posted (rows.foldl IndexBuilder.pushRow b).postings term r ↔ Posted b.postings term r ∨
      ∃ j raw, rows[j]? = some raw ∧ term ∈ b.tokenizer.tokenize raw ∧ r = b.nRows + ofNat j := by
  induction rows generalizing b with
  | nil => simp
  | cons raw rows ih =>
    rw [foldl_cons, ih, posted_pushRow, or_assoc]
    refine or_congr Iff.rfl ⟨?_, ?_⟩
    · rintro (⟨ht, rfl⟩ | ⟨j, row, hj, ht, rfl⟩)
      · exact ⟨0, raw, rfl, ht, by simp⟩
      · refine ⟨j + 1, row, hj, ht, ?_⟩
        rw [ofNat_add, UInt32.add_comm (ofNat j), ← UInt32.add_assoc]
        rfl
    · rintro ⟨_ | j, row, hj, ht, rfl⟩
      · rw [List.getElem?_cons_zero, Option.some.injEq] at hj
        exact Or.inl ⟨hj ▸ ht, by simp⟩
      · refine Or.inr ⟨j, row, hj, ht, ?_⟩
        rw [ofNat_add, UInt32.add_comm (ofNat j), ← UInt32.add_assoc]
        rfl

/-- A row is posted under a term exactly when its text has the token. -/
theorem posted_fromRows {tokenizer : Tokenizer} :
    Posted (InvertedIndex.fromRowsWithTokenizer rows tokenizer).postings term r ↔
      ∃ j raw, rows[j]? = some raw ∧ term ∈ tokenizer.tokenize raw ∧ r = ofNat j := by
  rw [InvertedIndex.fromRowsWithTokenizer, IndexBuilder.build, posted_foldl_pushRow]
  simp [Posted, IndexBuilder.withTokenizer, SortedMap.empty]

theorem mem_foldl_unionIfContains {norm : Text} {entries : List (Text × List UInt32)} {acc : List UInt32} :
    r ∈ entries.foldl (unionIfContains norm) acc ↔
      r ∈ acc ∨ ∃ term rows, (term, rows) ∈ entries ∧ norm <:+: term ∧ r ∈ rows := by
  induction entries generalizing acc with
  | nil => simp
  | cons e entries ih =>
    obtain ⟨term, rows⟩ := e
    rw [foldl_cons, ih, unionIfContains]
    split
    · next h =>
      rw [containsText_iff] at h
      simp only [mem_unionSorted, mem_cons, Prod.mk.injEq]
      grind
    · next h =>
      rw [containsText_iff] at h
      simp only [mem_cons, Prod.mk.injEq]
      grind

/-- The rows found for a term are those with a token that contains it. -/
theorem mem_rowsContaining_fromRows {s norm : Text} {acc : List UInt32}
    (hnorm : normalizeQueryTerm s = some norm) (hacc : (InvertedIndex.fromRows rows).rowsContaining s = some acc) :
    r ∈ acc ↔ ∃ j raw, rows[j]? = some raw ∧ (∃ token ∈ defaultTokenize raw, norm <:+: token) ∧ r = ofNat j := by
  rw [InvertedIndex.rowsContaining, hnorm, Option.map_some, Option.some.injEq] at hacc
  rw [← hacc, mem_foldl_unionIfContains]
  simp only [not_mem_nil, false_or]
  constructor
  · rintro ⟨term, rs, hmem, hsub, hr⟩
    obtain ⟨j, raw, hj, ht, rfl⟩ := posted_fromRows.mp ⟨rs, hmem, hr⟩
    exact ⟨j, raw, hj, ⟨term, ht, hsub⟩, rfl⟩
  · rintro ⟨j, raw, hj, ⟨term, ht, hsub⟩, rfl⟩
    obtain ⟨rs, hmem, hr⟩ : Posted (InvertedIndex.fromRows rows).postings term (ofNat j) :=
      posted_fromRows.mpr ⟨j, raw, hj, ht, rfl⟩
    exact ⟨term, rs, hmem, hsub, hr⟩

/-! ## Runs of rows -/

/-- Whether each row is selected. -/
def selection (runs : List Run) : List Bool := runs.flatMap fun run => replicate run.2.toNat run.1

/-- Runs that alternate and are not empty, over so many rows, select these ones. -/
structure Tiles (runs : List Run) (n : Nat) (rows : List UInt32) : Prop where
  nonempty : ∀ run ∈ runs, run.2 ≠ 0
  alternate : (runs.map Prod.fst).IsChain (· ≠ ·)
  sum : (runs.map fun run => run.2.toNat).sum = n
  selects : ∀ i, (selection runs)[i]? = some true ↔ i ∈ rows.map UInt32.toNat

theorem length_selection (runs : List Run) : (selection runs).length = (runs.map fun run => run.2.toNat).sum := by
  simp [selection, length_flatMap]

theorem selection_concat (runs : List Run) (run : Run) :
    selection (runs ++ [run]) = selection runs ++ replicate run.2.toNat run.1 := by
  simp [selection]

variable {runs : List Run}

theorem toNat_add_of_lt {a b : UInt32} (h : a.toNat + b.toNat < 2 ^ 32) : (a + b).toNat = a.toNat + b.toNat :=
  (UInt32.toNat_add a b).trans (Nat.mod_eq_of_lt h)

/-- A pushed run extends the selection and keeps the runs alternating. -/
theorem pushRun_spec (kind : Bool) {len : UInt32} (hnonempty : ∀ run ∈ runs, run.2 ≠ 0)
    (halternate : (runs.map Prod.fst).IsChain (· ≠ ·)) (hfits : (selection runs).length + len.toNat < 2 ^ 32) :
    (∀ run ∈ pushRun runs kind len, run.2 ≠ 0) ∧ ((pushRun runs kind len).map Prod.fst).IsChain (· ≠ ·) ∧
      selection (pushRun runs kind len) = selection runs ++ replicate len.toNat kind := by
  unfold pushRun
  split
  · next hzero => exact ⟨hnonempty, halternate, by simp [hzero]⟩
  next hlen =>
  rcases eq_nil_or_concat' runs with rfl | ⟨before, ⟨k, l⟩, rfl⟩
  · exact ⟨by simpa using hlen, isChain_singleton _, by simp [selection]⟩
  obtain ⟨hbefore, hl⟩ := forall_mem_append.mp hnonempty
  rw [getLast?_concat]
  dsimp only
  split
  · next hkind =>
    subst hkind
    rw [selection_concat, length_append, length_replicate] at hfits
    have hsum : (l + len).toNat = l.toNat + len.toNat := toNat_add_of_lt (by dsimp only at hfits; omega)
    rw [dropLast_concat]
    refine ⟨forall_mem_append.mpr ⟨hbefore, ?_⟩, by simpa using halternate, ?_⟩
    · rw [forall_mem_singleton]
      intro hzero
      have hnat : l.toNat + len.toNat = 0 := hsum.symm.trans (congrArg UInt32.toNat hzero)
      exact hlen (UInt32.toNat_inj.mp (Nat.eq_zero_of_add_eq_zero_left hnat))
    · rw [selection_concat, selection_concat, append_assoc, ← replicate_add, hsum]
  · next hkind =>
    refine ⟨forall_mem_append.mpr ⟨hnonempty, forall_mem_singleton.mpr hlen⟩, ?_, selection_concat _ _⟩
    rw [map_append, isChain_append]
    exact ⟨halternate, isChain_singleton _, by simpa using hkind⟩

theorem getElem?_append_replicate (rows : List Bool) (kind : Bool) (n i : Nat) :
    (rows ++ replicate n kind)[i]? = some true ↔
      rows[i]? = some true ∨ kind = true ∧ rows.length ≤ i ∧ i < rows.length + n := by
  rw [getElem?_append]
  split
  · next hlt => simp [hlt.not_ge]
  · next hge =>
    rw [getElem?_eq_none (not_lt.mp hge), getElem?_replicate]
    simp [and_comm]
    omega

/-- Runs that tile the rows so far tile one more stretch. -/
theorem Tiles.push {n : Nat} {rows rows' : List UInt32} (h : Tiles runs n rows) (kind : Bool)
    (len : UInt32) (hfits : n + len.toNat < 2 ^ 32)
    (hrows : ∀ i, i ∈ rows'.map UInt32.toNat ↔ i ∈ rows.map UInt32.toNat ∨ kind = true ∧ n ≤ i ∧ i < n + len.toNat) :
    Tiles (pushRun runs kind len) (n + len.toNat) rows' := by
  have hlength := (length_selection runs).trans h.sum
  obtain ⟨hnonempty, halternate, hselection⟩ := pushRun_spec kind h.nonempty h.alternate (hlength ▸ hfits)
  refine ⟨hnonempty, halternate, ?_, fun i => ?_⟩
  · rw [← length_selection, hselection, length_append, length_replicate, hlength]
  · rw [hselection, getElem?_append_replicate, h.selects, hrows, hlength]

theorem Tiles.skip {rows : List UInt32} {a b : UInt32} (h : Tiles runs a.toNat rows) (hab : a ≤ b) :
    Tiles (pushRun runs false (b - a)) b.toNat rows := by
  have hlen := UInt32.toNat_sub_of_le _ _ hab
  have hnat := UInt32.le_iff_toNat_le.mp hab
  have hsum : a.toNat + (b - a).toNat = b.toNat := by omega
  rw [← hsum]
  exact h.push false _ (hsum ▸ b.toNat_lt) (by simp)

/-- What the loop has made of some rows: it stands right behind the last of them. -/
theorem tiles_foldl {nRows : UInt32} {selected : List UInt32} (hsorted : selected.Pairwise (· < ·))
    (hbelow : ∀ r ∈ selected, r < nRows) {s : List Run × UInt32} (hs : selected.foldl (selectRow nRows) ([], 0) = s) :
    Tiles s.1 s.2.toNat selected ∧ ∀ r, (∀ p ∈ selected, p < r) → s.2 ≤ r := by
  induction selected using List.reverseRecOn generalizing s with
  | nil =>
    subst hs
    exact ⟨⟨nofun, isChain_nil, rfl, by simp [selection]⟩, fun r _ => UInt32.zero_le⟩
  | append_singleton seen ord ih =>
    obtain ⟨hseen, -, hless⟩ := pairwise_append.mp hsorted
    obtain ⟨hbefore, hord⟩ := forall_mem_append.mp hbelow
    rw [foldl_append, foldl_cons, foldl_nil] at hs
    obtain ⟨htiles, hnext⟩ := ih hseen hbefore rfl
    have hcursor := hnext ord fun p hp => hless p hp ord mem_cons_self
    have hlt := hord ord mem_cons_self
    have hmax := UInt32.lt_iff_toNat_lt.mp hlt
    have hbound := nRows.toNat_lt
    have hsucc : (ord + 1).toNat = ord.toNat + 1 := toNat_add_of_lt (by simp; omega)
    rw [selectRow, if_neg (not_or.mpr ⟨not_le.mpr hlt, not_lt.mpr hcursor⟩)] at hs
    subst hs
    refine ⟨?_, fun r hr => ?_⟩
    · rw [hsucc]
      refine (htiles.skip hcursor).push true 1 (by simp; omega) fun i => ?_
      rw [map_append, mem_append, map_singleton, mem_singleton, UInt32.toNat_one, and_iff_right rfl]
      exact or_congr_right (by omega)
    · rw [UInt32.le_iff_toNat_le, hsucc]
      exact UInt32.lt_iff_toNat_lt.mp (hr ord (mem_append_right _ mem_cons_self))

end LogLake
