import LogLake.OrderedMerge

/-! # Inputs left unopened hold no row of the answer -/

namespace LogLake.OrderedMerge

open List
open OrderedMergeInput (frontierBound rows)

variable {descending : Bool} {limit : Nat}

theorem Before.trans (a b c : Option Int) (hab : Before descending a b) (hbc : Before descending b c) :
    Before descending a c := by
  cases descending <;> cases a <;> cases b <;> cases c <;> simp_all [Before] <;> omega

theorem Before.total (a b : Option Int) : Before descending a b ∨ Before descending b a := by
  cases descending <;> cases a <;> cases b <;> simp [Before] <;> omega

theorem Before.antisymm (a b : Option Int) (hab : Before descending a b) (hba : Before descending b a) : a = b := by
  cases descending <;> cases a <;> cases b <;> simp_all [Before] <;> omega

theorem pairwise_sorted {α : Type} (f : α → Option Int) (l : List α) :
    (l.insertionSort fun a b => Before descending (f a) (f b)).Pairwise fun a b => Before descending (f a) (f b) := by
  have : Std.Total fun a b => Before descending (f a) (f b) := ⟨fun a b => Before.total _ _⟩
  have : IsTrans α fun a b => Before descending (f a) (f b) := ⟨fun a b c => Before.trans _ _ _⟩
  exact pairwise_insertionSort _ l

/-! ## What is buffered -/

theorem map_some_reduceOption {l : List (Option Int)} (h : ∀ x ∈ l, x.isSome = true) : l.reduceOption.map some = l := by
  induction l with
  | nil => rfl
  | cons x l ih =>
    obtain ⟨hx, hl⟩ := forall_mem_cons.mp h
    obtain ⟨v, rfl⟩ := Option.isSome_iff_exists.mp hx
    rw [reduceOption_cons_of_some, map_cons, ih hl]

theorem map_some_of_buffered {rows : Nat} {stream : List Batch} {values : List Int}
    (h : buffered limit rows stream = some values) :
    values.map some = (stream.flatMap Batch.values).take (limit - rows) := by
  induction stream generalizing rows values with
  | nil =>
    cases h
    simp
  | cons batch rest ih =>
    rw [buffered] at h
    rw [flatMap_cons]
    split at h
    · next hrows =>
      dsimp only at h
      split at h
      · next hnone =>
        have hempty : batch.values = [] := length_eq_zero_iff.mp (by omega)
        rw [hempty, nil_append]
        exact ih h
      · obtain ⟨first, hfirst, h⟩ := Option.bind_eq_some_iff.mp h
        obtain ⟨later, hlater, rfl⟩ := Option.map_eq_some_iff.mp h
        obtain ⟨hall, rfl⟩ := Option.ite_some_none_eq_some.mp hfirst
        rw [Bool.and_eq_true, all_eq_true] at hall
        have hleft : limit - (rows + min (limit - rows) batch.values.length) = limit - rows - batch.values.length := by
          omega
        rw [map_append, map_some_reduceOption hall.2, ih hlater, take_append, hleft, ← take_eq_take_min]
    · cases h
      have hzero : limit - rows = 0 := by omega
      rw [hzero, take_zero, map_nil]

theorem nthOrderedValue_spec {values : List Int} (hlimit : 0 < limit) (hlength : limit ≤ values.length) :
    ∃ nth, nthOrderedValue values limit descending = some nth ∧
      limit ≤ (values.map some).countP fun z => Before descending z (some nth) := by
  have hperm := perm_insertionSort (fun a b : Int => Before descending (some a) (some b)) values
  have hsorted := @pairwise_sorted descending _ some values
  rw [nthOrderedValue, if_neg hlimit.ne']
  generalize values.insertionSort (fun a b : Int => Before descending (some a) (some b)) = sorted at hperm hsorted ⊢
  have hlt : limit - 1 < sorted.length := by
    rw [hperm.length_eq]
    omega
  refine ⟨sorted[limit - 1], getElem?_eq_getElem hlt, ?_⟩
  have hmem : some sorted[limit - 1] ∈ (sorted.map some).drop (limit - 1) := by
    rw [← map_drop, drop_eq_getElem_cons hlt, map_cons]
    exact mem_cons_self
  have hfront := TopN.le_countP_take (pairwise_map.mpr hsorted) hmem
  have hback : 0 < ((sorted.map some).drop (limit - 1)).countP fun z => Before descending z (some sorted[limit - 1]) :=
    countP_pos_iff.mpr ⟨_, hmem, decide_eq_true ((Before.total _ _).elim id id)⟩
  rw [← (hperm.map some).countP_eq, ← take_append_drop (limit - 1) (sorted.map some), countP_append]
  omega

/-! ## What is left unopened -/

theorem OrderedMergeInput.Bounded.before {input : OrderedMergeInput} (h : input.Bounded descending) {bound : Int}
    (hbound : input.frontierBound = some bound) {y : Option Int} (hy : y ∈ input.rows) :
    Before descending (some bound) y := by
  have hsorted := h.sorted
  have hfirst := h.bound bound hbound
  cases hrows : input.rows with
  | nil =>
    rw [hrows] at hy
    nomatch hy
  | cons first rows =>
    rw [hrows] at hy hsorted hfirst
    rcases mem_cons.mp hy with rfl | hy
    · exact hfirst y rfl
    · exact Before.trans _ _ _ (hfirst first rfl) ((pairwise_cons.mp hsorted).1 y hy)

/-- Where the next bound is strictly behind, it and all rows of the inputs to come are. -/
theorem before_of_stopped {inputs : List OrderedMergeInput} {nth : Int}
    (hinputs : ∀ input ∈ inputs, input.Bounded descending) (hbound : ∀ input ∈ inputs, input.frontierBound.isSome = true)
    (hsorted : inputs.Pairwise fun a b => Before descending a.frontierBound b.frontierBound)
    (hstop : boundIsStrictlyBehind nth (inputs.head?.bind frontierBound) descending = true)
    {y : Option Int} (hy : y ∈ inputs.flatMap rows) : Before descending (some nth) y := by
  obtain ⟨input, hinput, hy⟩ := mem_flatMap.mp hy
  obtain ⟨bound, heq⟩ := Option.isSome_iff_exists.mp (hbound input hinput)
  refine Before.trans _ (some bound) _ ?_ ((hinputs input hinput).before heq hy)
  cases inputs with
  | nil => nomatch hinput
  | cons next rest =>
    obtain ⟨first, hfirst⟩ := Option.isSome_iff_exists.mp (hbound next mem_cons_self)
    have hnext : Before descending (some nth) (some first) := by
      rw [head?_cons, Option.bind_some, hfirst, boundIsStrictlyBehind, Option.any_some] at hstop
      cases descending <;> simp_all [Before] <;> omega
    rcases mem_cons.mp hinput with rfl | hinput
    · obtain rfl : first = bound := Option.some.inj (hfirst.symm.trans heq)
      exact hnext
    · have hlater := (pairwise_cons.mp hsorted).1 input hinput
      rw [hfirst, heq] at hlater
      exact Before.trans _ _ _ hnext hlater

/-- The rows that are not kept have the limit's number of kept or seen rows before them. -/
def Dropped (descending : Bool) (limit : Nat) (seen kept rows : List (Option Int)) : Prop :=
  ∃ dropped, (kept ++ dropped).Perm rows ∧
    ∀ y ∈ dropped, limit ≤ (seen ++ kept).countP fun z => Before descending z y

theorem Dropped.all (seen rows : List (Option Int)) : Dropped descending limit seen rows rows :=
  ⟨[], by rw [append_nil], fun _ hy => nomatch hy⟩

/-- The first rows of a sorted input are kept, and the rest of it dropped. -/
theorem Dropped.cons {seen first kept rows : List (Option Int)} (hfirst : first.Pairwise (Before descending))
    (h : Dropped descending limit (seen ++ first.take limit) kept rows) :
    Dropped descending limit seen (first.take limit ++ kept) (first ++ rows) := by
  obtain ⟨dropped, hperm, hbehind⟩ := h
  refine ⟨first.drop limit ++ dropped, ?_, fun y hy => ?_⟩
  · rw [append_assoc]
    refine ((perm_append_comm_assoc _ _ _).append_left _).trans ?_
    rw [← append_assoc, take_append_drop]
    exact hperm.append_left _
  · rw [countP_append, countP_append]
    rcases mem_append.mp hy with hy | hy
    · have hfront := TopN.le_countP_take hfirst hy
      omega
    · have hcount := hbehind y hy
      rw [countP_append, countP_append] at hcount
      omega

theorem frontierPrunedMergeInputs_spec (hlimit : 0 < limit) (seen : List Int) {inputs : List OrderedMergeInput}
    (hinputs : ∀ input ∈ inputs, input.Bounded descending) (hbound : ∀ input ∈ inputs, input.frontierBound.isSome = true)
    (hsorted : inputs.Pairwise fun a b => Before descending a.frontierBound b.frontierBound) :
    ∃ kept, frontierPrunedMergeInputs limit descending seen inputs = some kept ∧
      Dropped descending limit (seen.map some) kept.flatten (inputs.flatMap rows) := by
  induction inputs generalizing seen with
  | nil => exact ⟨[], rfl, .all _ _⟩
  | cons input rest ih =>
    obtain ⟨hinput, hinputs⟩ := forall_mem_cons.mp hinputs
    obtain ⟨-, hbound⟩ := forall_mem_cons.mp hbound
    obtain ⟨-, hsorted⟩ := pairwise_cons.mp hsorted
    rw [frontierPrunedMergeInputs, flatMap_cons]
    cases hbuffered : buffered limit 0 input.stream with
    | none =>
      refine ⟨_, rfl, ?_⟩
      rw [flatten_cons, ← flatMap_def]
      exact .all _ _
    | some values =>
      have hvalues : values.map some = input.rows.take limit := map_some_of_buffered hbuffered
      obtain ⟨kept, hkept, hdropped⟩ := ih (seen ++ values) hinputs hbound hsorted
      have hmore : ∃ kept, (frontierPrunedMergeInputs limit descending (seen ++ values) rest).map
          (values.map some :: ·) = some kept ∧ Dropped descending limit (seen.map some) kept.flatten
            (input.rows ++ rest.flatMap rows) := by
        refine ⟨_, by rw [hkept]; rfl, ?_⟩
        rw [map_append, hvalues] at hdropped
        rw [flatten_cons, hvalues]
        exact hdropped.cons hinput.sorted
      dsimp only
      split
      · exact hmore
      · next hfull =>
        obtain ⟨nth, hnth, hcount⟩ := @nthOrderedValue_spec descending limit _ hlimit (not_lt.mp hfull)
        rw [hnth, Option.bind_some]
        split
        · next hstop =>
          refine ⟨_, rfl, ?_⟩
          rw [flatten_cons, hvalues]
          refine Dropped.cons hinput.sorted ⟨_, Perm.refl _, fun y hy => ?_⟩
          rw [← hvalues, ← map_append, flatten_nil, append_nil]
          have hy := before_of_stopped hinputs hbound hsorted hstop hy
          refine hcount.trans (countP_mono_left fun z _ hz => ?_)
          exact decide_eq_true (Before.trans _ _ _ (of_decide_eq_true hz) hy)
        · exact hmore

theorem take_eq_of_dropped {kept rows out whole : List (Option Int)} (h : Dropped descending limit [] kept rows)
    (hout : IsMerge descending kept out) (hwhole : IsMerge descending rows whole) : out.take limit = whole.take limit := by
  obtain ⟨dropped, hperm, hbehind⟩ := h
  have hcount : ∀ y ∈ dropped, limit ≤ out.countP fun z => Before descending z y := by
    intro y hy
    rw [hout.perm.countP_eq]
    exact hbehind y hy
  obtain ⟨other, hother, hsorted, htake⟩ :=
    TopN.exists_sorted_take_append Before.trans Before.total limit hout.sorted hcount
  have hsame : other.Perm whole := hother.trans ((hout.perm.append_right _).trans (hperm.trans hwhole.perm.symm))
  rw [← htake, hsame.eq_of_pairwise (fun a b _ _ => Before.antisymm a b) hsorted hwhole.sorted]

/-- For inputs that are sorted and bounded, and with any limit: the streams that are merged are determined, and the first rows of
their merge up to the limit are those of the merge of all inputs. -/
theorem top_rows_kept (scan : Scan) (inputs : List OrderedMergeInput)
    (hinputs : ∀ input ∈ inputs, input.Bounded scan.sortDescending) :
    ∃ kept, mergedStreams scan inputs = some kept ∧ ∀ limit ∈ scan.limitHint, ∀ out whole,
      IsMerge scan.sortDescending kept.flatten out →
        IsMerge scan.sortDescending (inputs.flatMap rows) whole → out.take limit = whole.take limit := by
  have hall : ∀ limit, Dropped scan.sortDescending limit [] (inputs.map rows).flatten
      (inputs.flatMap rows) := by
    intro limit
    rw [← flatMap_def]
    exact .all _ _
  unfold mergedStreams
  split
  · exact ⟨_, rfl, fun limit _ out whole hout hwhole => take_eq_of_dropped (hall limit) hout hwhole⟩
  · next limit hlimit =>
    obtain ⟨hhint, -⟩ := Option.filter_eq_some_iff.mp hlimit
    obtain ⟨hhint, hpos⟩ := Option.filter_eq_some_iff.mp hhint
    split
    · exact ⟨_, rfl, fun limit _ out whole hout hwhole => take_eq_of_dropped (hall limit) hout hwhole⟩
    · next hnone =>
      have hperm := perm_insertionSort (fun a b : OrderedMergeInput =>
        Before scan.sortDescending a.frontierBound b.frontierBound) inputs
      have hbound : ∀ input ∈ inputs, input.frontierBound.isSome = true := by
        intro input hinput
        by_contra hnot
        exact hnone (any_eq_true.mpr ⟨input, hinput, by simpa using hnot⟩)
      obtain ⟨kept, hkept, dropped, hrows, hbehind⟩ := frontierPrunedMergeInputs_spec (of_decide_eq_true hpos) []
        (fun input h => hinputs input (hperm.mem_iff.mp h)) (fun input h => hbound input (hperm.mem_iff.mp h))
        (pairwise_sorted _ inputs)
      refine ⟨kept, hkept, fun limit' hlimit' out whole hout hwhole => ?_⟩
      obtain rfl : limit = limit' := Option.some.inj (hhint.symm.trans hlimit')
      exact take_eq_of_dropped ⟨dropped, hrows.trans (hperm.flatMap_right _), hbehind⟩ hout hwhole

def newerAndOlder : List OrderedMergeInput := [⟨[⟨true, [some 5]⟩], some 5⟩, ⟨[⟨true, [some 3]⟩], some 4⟩]

/-- Two inputs and a limit of one: the second input is left unopened. -/
theorem older_input_unopened :
    mergedStreams ⟨true, some 1, true, 10⟩ newerAndOlder = some [[some 5]] ∧
      ∀ out whole, IsMerge true [some 5] out → IsMerge true [some 5, some 3] whole → out.take 1 = whole.take 1 := by
  have hpruned : mergedStreams ⟨true, some 1, true, 10⟩ newerAndOlder = some [[some 5]] := by decide +kernel
  obtain ⟨kept, hkept, htake⟩ := top_rows_kept ⟨true, some 1, true, 10⟩ newerAndOlder
    (forall_mem_cons.mpr ⟨⟨by decide, by decide⟩, forall_mem_singleton.mpr ⟨by decide, by decide⟩⟩)
  obtain rfl : kept = [[some 5]] := Option.some.inj (hkept.symm.trans hpruned)
  exact ⟨hpruned, htake 1 rfl⟩

end LogLake.OrderedMerge
