import LogLake.Results

/-! # Truncation is signalled, except at the end of a batch -/

namespace LogLake

open List NdjsonStream

variable {ρ : Type} (cap : Nat) (batches : List (List ρ))

/-! ## Records -/

theorem flatten_trimBatchesTo (remaining : Nat) :
    (trimBatchesTo batches remaining).flatten = batches.flatten.take remaining := by
  induction batches generalizing remaining with
  | nil => simp [trimBatchesTo]
  | cons b rest ih =>
    rw [trimBatchesTo, flatten_cons]
    split
    · next hzero => simp [hzero]
    · split
      · next hle => rw [flatten_cons, ih, take_append, take_of_length_le hle]
      · next hgt =>
        rw [flatten_cons, ih, take_append]
        simp [Nat.sub_eq_zero_of_le (Nat.le_of_not_le hgt)]

theorem batchesToRecords_signals :
    Signals cap batches (batchesToRecords batches (some cap)).rows (batchesToRecords batches (some cap)).truncated := by
  unfold Signals batchesToRecords
  rw [length_flatten]
  dsimp only
  split
  · next hlt => exact ⟨flatten_trimBatchesTo batches cap, by simp [hlt]⟩
  · next hge => exact ⟨by rw [take_of_length_le (by rw [length_flatten]; omega)], by simp [hge]⟩

/-! ## Collecting -/

/-- The loop holds a front part of the batches: all of them, or up to a batch that reaches the cap. -/
theorem collectLoop_split (seen : Nat) : ∃ rest, batches = collectLoop cap seen batches ++ rest ∧
      (rest = [] ∨ collectLoop cap seen batches ≠ [] ∧ cap ≤ seen + (collectLoop cap seen batches).flatten.length) := by
  induction batches generalizing seen with
  | nil => exact ⟨[], rfl, .inl rfl⟩
  | cons b rest ih =>
    rw [collectLoop]
    split
    · next hreached => exact ⟨rest, rfl, .inr ⟨cons_ne_nil _ _, by simpa using hreached⟩⟩
    · obtain ⟨others, hsplit, hend⟩ := ih (seen + b.length)
      refine ⟨others, by rw [cons_append, ← hsplit], hend.imp_right fun ⟨_, _⟩ => ⟨cons_ne_nil _ _, ?_⟩⟩
      rw [flatten_cons, length_append]
      omega

/-- Where a front part ends with exactly the cap, the loop holds no more than the cap. -/
theorem collectLoop_of_boundary (seen : Nat) {front : List (List ρ)} (rest : List (List ρ)) (hfront : front ≠ [])
    (hcap : seen + front.flatten.length = cap) : seen + (collectLoop cap seen (front ++ rest)).flatten.length = cap := by
  induction front generalizing seen with
  | nil => exact absurd rfl hfront
  | cons b front ih =>
    rw [flatten_cons, length_append] at hcap
    rw [cons_append, collectLoop]
    split
    · next hreached =>
      rw [flatten_cons, length_append, flatten_nil, length_nil]
      omega
    · next hbelow =>
      have hmore : front ≠ [] := by
        rintro rfl
        rw [flatten_nil, length_nil] at hcap
        omega
      have hrest := ih (seen + b.length) hmore (by omega : seen + b.length + front.flatten.length = cap)
      rw [flatten_cons, length_append]
      omega

theorem runBatchQuery_signals_iff :
    Signals cap batches (runBatchQuery batches cap).rows (runBatchQuery batches cap).truncated ↔
      NoRowsBehindCap cap batches := by
  obtain ⟨hrows, htruncated⟩ := batchesToRecords_signals cap (collectWithRowCaps batches cap)
  constructor
  · rintro ⟨-, hsignal⟩ front rest hfront rfl hcap
    have hheld := collectLoop_of_boundary cap 0 rest hfront (by rwa [Nat.zero_add])
    rw [Nat.zero_add] at hheld
    have hnone : ¬ cap < (front ++ rest).flatten.length := by
      intro hmore
      have hlt := htruncated.mp (hsignal.mpr hmore)
      rw [collectWithRowCaps] at hlt
      omega
    rw [flatten_append, length_append] at hnone
    exact length_eq_zero_iff.mp (by omega)
  · intro hbehind
    obtain ⟨rest, hsplit, hend⟩ := collectLoop_split cap batches 0
    rw [← collectWithRowCaps] at hsplit hend
    unfold Signals
    rw [runBatchQuery, hrows, htruncated]
    rcases hend with rfl | ⟨hfront, hcap⟩
    · rw [append_nil] at hsplit
      rw [← hsplit]
      exact ⟨rfl, Iff.rfl⟩
    · rw [Nat.zero_add] at hcap
      have hflatten := congrArg List.flatten hsplit
      rw [flatten_append] at hflatten
      rw [hflatten, take_append_of_le_length hcap, length_append]
      refine ⟨rfl, fun hlt => by omega, fun hlt => ?_⟩
      by_contra hle
      have hexact : (collectWithRowCaps batches cap).flatten.length = cap := by omega
      rw [hbehind _ rest hfront hsplit hexact, length_nil] at hlt
      omega

/-! ## The stream -/

/-- From any state in which the cap is not exhausted, the stream emits the rows that are left of the cap and ends with the
marker exactly when the batches hold more. -/
theorem polls_signals (emitted n : Nat) (hn : batches.length + 2 ≤ n) :
    Signals (cap - emitted) batches ((polls n ⟨batches, emitted, some cap, false, none⟩).flatMap Chunk.emitted)
      ((polls n ⟨batches, emitted, some cap, false, none⟩).any Chunk.isMarker) := by
  induction batches generalizing emitted n with
  | nil =>
    obtain ⟨n, rfl⟩ : ∃ m, n = m + 1 := ⟨n - 1, by omega⟩
    simp [polls, pollNext, Signals]
  | cons b rest ih =>
    obtain ⟨n, rfl⟩ : ∃ m, n = m + 2 := ⟨n - 2, by omega⟩
    rw [length_cons] at hn
    by_cases hle : b.length ≤ cap - emitted
    · obtain ⟨hrows, hmarked⟩ := ih (emitted + b.length) (n + 1) (by omega)
      have hleft : cap - (emitted + b.length) = cap - emitted - b.length := by omega
      rw [hleft] at hrows hmarked
      rw [polls]
      simp only [pollNext, clipBatch, if_pos hle, Bool.false_eq_true, if_false]
      refine ⟨?_, ?_⟩
      · rw [flatMap_cons, hrows, flatten_cons, take_append, take_of_length_le hle]
        rfl
      · rw [any_cons, Chunk.isMarker, Bool.false_or, hmarked, flatten_cons, length_append]
        omega
    · -- the batch is clipped, and the marker is the last chunk
      have hend : polls n ⟨rest, emitted + (b.take (cap - emitted)).length, some cap, true, none⟩ = [] := by
        cases n with
        | zero => rfl
        | succ n => simp [polls, pollNext]
      simp only [polls, pollNext, clipBatch, if_neg hle, Bool.false_eq_true, if_false, if_true, hend]
      refine ⟨?_, ?_⟩
      · rw [flatMap_cons, flatten_cons, take_append_of_le_length (by omega)]
        simp [Chunk.emitted]
      · rw [flatten_cons, length_append]
        simp [Chunk.isMarker]
        omega

/-! ## All paths -/

/-- All three paths emit the first rows up to the cap and say exactly when there are more, if and only if no batch of the
result ends at exactly the cap with rows behind it: there the batch job stops collecting and cannot know. -/
theorem truncation_signalled_iff (cap : Nat) (batches : List (List ρ)) :
    (Signals cap batches (runBatchQuery batches cap).rows (runBatchQuery batches cap).truncated ∧
      Signals cap batches (batchesToRecords batches (some cap)).rows (batchesToRecords batches (some cap)).truncated ∧
      ∀ n, batches.length + 2 ≤ n →
        Signals cap batches (((NdjsonStream.new batches (some cap)).polls n).flatMap Chunk.emitted)
          (((NdjsonStream.new batches (some cap)).polls n).any Chunk.isMarker)) ↔ NoRowsBehindCap cap batches := by
  constructor
  · rintro ⟨hjob, -, -⟩
    exact (runBatchQuery_signals_iff cap batches).mp hjob
  · intro hbehind
    exact ⟨(runBatchQuery_signals_iff cap batches).mpr hbehind, batchesToRecords_signals cap batches,
      fun n hn => polls_signals cap batches 0 n hn⟩

/-- Two batches of one row under a cap of one: the batch job answers the first row and says that it is all. -/
theorem cap_at_batch_end_not_signalled :
    (runBatchQuery [[1], [2]] 1).rows = [1] ∧ (runBatchQuery [[1], [2]] 1).truncated = false ∧
      ¬ Signals 1 [[1], [2]] (runBatchQuery [[1], [2]] 1).rows (runBatchQuery [[1], [2]] 1).truncated := by
  refine ⟨by decide, by decide, fun h => ?_⟩
  exact absurd (h.2.mpr (by decide)) (by decide)

end LogLake
