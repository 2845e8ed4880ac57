import LogLake.Bloom

/-! # Facts about tokens, trigrams and token blooms -/

namespace LogLake

open List

/-! ## Tokens -/

theorem defaultTokenizeLoop_eq (ps out : List Text) (h : out.length < maxTokensPerRow) : defaultTokenizeLoop ps out =
      out ++ (((ps.filter (minTokenLen ≤ ·.length)).take (maxTokensPerRow - out.length)).map toAsciiLowercase) := by
  induction ps generalizing out with
  | nil => simp [defaultTokenizeLoop]
  | cons piece rest ih =>
    rw [defaultTokenizeLoop]
    split
    · next hs =>
      rw [ih out h, filter_cons_of_neg (by simpa using hs)]
    · next hs =>
      rw [filter_cons_of_pos (by simpa using hs)]
      obtain ⟨n, hn⟩ : ∃ n, maxTokensPerRow - out.length = n + 1 := ⟨maxTokensPerRow - out.length - 1, by omega⟩
      simp only [length_append, length_singleton]
      split
      · have : n = 0 := by omega
        simp [hn, this]
      · rw [ih _ (by simp only [length_append, length_singleton]; omega)]
        have : maxTokensPerRow - (out ++ [toAsciiLowercase piece]).length = n := by
          simp only [length_append, length_singleton]; omega
        rw [this, hn, take_succ_cons, map_cons, append_assoc, singleton_append]

/-- The long pieces of a text that the tokenizer keeps. -/
def keptPieces (raw : Text) : List Text := ((pieces raw).filter (minTokenLen ≤ ·.length)).take maxTokensPerRow

theorem defaultTokenize_eq (raw : Text) : defaultTokenize raw = (keptPieces raw).map toAsciiLowercase := by
  rw [defaultTokenize, defaultTokenizeLoop_eq _ _ (by decide)]
  rfl

variable {raw : Text}

theorem mem_keptPieces {q : Text} (h : q ∈ keptPieces raw) : q ∈ pieces raw ∧ minTokenLen ≤ q.length := by
  have := mem_filter.mp (mem_of_mem_take h)
  exact ⟨this.1, by simpa using this.2⟩

variable {token : Text}

/-- A token is a part of the lowercase text. -/
theorem infix_of_mem_defaultTokenize (h : token ∈ defaultTokenize raw) : token <:+: toAsciiLowercase raw := by
  rw [defaultTokenize_eq] at h
  obtain ⟨q, hq, rfl⟩ := mem_map.mp h
  exact isInfix_toAsciiLowercase (infix_of_mem_splitOnP (mem_keptPieces hq).1)

theorem length_of_mem_defaultTokenize (h : token ∈ defaultTokenize raw) : minTokenLen ≤ token.length := by
  rw [defaultTokenize_eq] at h
  obtain ⟨q, hq, rfl⟩ := mem_map.mp h
  rw [length_toAsciiLowercase]
  exact (mem_keptPieces hq).2

/-! ## Query terms -/

/-! ## Trigrams -/

theorem mem_trigrams {g : Text} : g ∈ trigrams raw ↔ g <:+: toAsciiLowercase raw ∧ g.length = trigramLen :=
  mem_windows (by decide)

theorem trigrams_subset {s : Text} (h : toAsciiLowercase s <:+: toAsciiLowercase raw) : trigrams s ⊆ trigrams raw :=
  windows_subset_of_isInfix (by decide) h

theorem mem_queryTrigrams {s g : Text} {gs : List Text} (h : queryTrigrams s = some gs) : g ∈ gs ↔ g ∈ trigrams s := by
  unfold queryTrigrams at h
  split at h
  · cases h
  · rw [← Option.some.inj h, mem_eraseDups]

/-! ## The bloom filter marks exactly the positions of its tokens -/

theorem toNat_bitMask (bit : Nat) : (bitMask bit).toNat = 2 ^ (bit % 8) := by
  have hlt : bit % 8 < 8 := Nat.mod_lt _ (by decide)
  simp only [bitMask, UInt8.toNat_shiftLeft, UInt8.toNat_one, UInt8.toNat_ofNat', Nat.one_shiftLeft]
  rw [Nat.mod_eq_of_lt (a := bit % 8) (by omega), Nat.mod_mod, Nat.mod_eq_of_lt]
  exact Nat.pow_lt_pow_right (by decide) hlt

theorem and_bitMask_ne_zero (x : UInt8) (bit : Nat) : x &&& bitMask bit ≠ 0 ↔ x.toNat.testBit (bit % 8) = true := by
  rw [ne_eq, ← UInt8.toNat_inj, UInt8.toNat_and, toNat_bitMask, UInt8.toNat_zero, Nat.and_two_pow]
  cases x.toNat.testBit (bit % 8) <;> simp

/-- Setting a bit sets it and no other. -/
theorem testBit_setBit {bits : List UInt8} {p q : Nat} (hp : p < bits.length * 8) :
    testBit (setBit bits p) q = true ↔ q = p ∨ testBit bits q = true := by
  simp only [testBit, bne_iff_ne, and_bitMask_ne_zero, setBit, getD_eq_getElem?_getD, List.getElem?_modify]
  by_cases hq : q / 8 = p / 8
  · have hlt : p / 8 < bits.length := by omega
    rw [hq, List.getElem?_eq_getElem hlt]
    simp only [if_pos, Option.map_eq_map, Option.map_some, Option.getD_some, UInt8.toNat_or, Nat.testBit_or,
      toNat_bitMask, Nat.testBit_two_pow, Bool.or_eq_true, decide_eq_true_eq]
    rw [or_comm]
    exact or_congr ⟨fun h => by omega, fun h => by omega⟩ Iff.rfl
  · simp only [if_neg (fun h : p / 8 = q / 8 => hq h.symm), id_map']
    exact ⟨Or.inr, fun h => h.resolve_left fun he => hq (by rw [he])⟩

def TokenBloom.marked (bloom : TokenBloom) : Set Nat := {p | testBit bloom.bits p = true}

def TokenBloom.probes (bloom : TokenBloom) (token : Text) : List Nat :=
  probePositions bloom.bits.length bloom.k token

@[simp] theorem TokenBloom.insert_bits_length (bloom : TokenBloom) (token : Text) :
    (bloom.insert token).bits.length = bloom.bits.length := length_foldl_setBit _ _

@[simp] theorem TokenBloom.insert_probes (bloom : TokenBloom) (token : Text) :
    (bloom.insert token).probes = bloom.probes := by
  funext t
  simp only [TokenBloom.probes, TokenBloom.insert_bits_length]
  rfl

theorem TokenBloom.probes_lt (bloom : TokenBloom) {p : Nat} (h : p ∈ bloom.probes token) : p < bloom.bits.length * 8 := by
  obtain ⟨i, -, rfl⟩ := mem_map.mp h
  have := length_pos_iff_ne_nil.mpr bloom.bits_ne_nil
  exact Nat.mod_lt _ (by omega)

theorem testBit_foldl_setBit (positions : List Nat) {bits : List UInt8} {q : Nat}
    (h : ∀ p ∈ positions, p < bits.length * 8) :
    testBit (positions.foldl setBit bits) q = true ↔ testBit bits q = true ∨ q ∈ positions := by
  induction positions generalizing bits with
  | nil => simp
  | cons p ps ih =>
    have hlen : (setBit bits p).length = bits.length := length_modify ..
    rw [foldl_cons, ih (fun r hr => by rw [hlen]; exact h r (mem_cons_of_mem p hr)),
      testBit_setBit (h p mem_cons_self), mem_cons]
    tauto

section

variable (bloom : TokenBloom)
include bloom

/-- An insert marks the probes of the token. -/
theorem TokenBloom.insert_marked (token : Text) :
    (bloom.insert token).marked = BloomFilter.insert bloom.probes bloom.marked token := by
  ext q
  exact testBit_foldl_setBit _ fun p hp => bloom.probes_lt hp

theorem TokenBloom.insertAll_marked (tokens : List Text) : (bloom.insertAll tokens).probes = bloom.probes ∧
      (bloom.insertAll tokens).marked = BloomFilter.insertAll bloom.probes bloom.marked tokens := by
  induction tokens generalizing bloom with
  | nil => exact ⟨rfl, rfl⟩
  | cons t ts ih =>
    obtain ⟨hprobes, hmarked⟩ := ih (bloom.insert t)
    rw [bloom.insert_probes] at hprobes hmarked
    rw [bloom.insert_marked] at hmarked
    exact ⟨hprobes, hmarked⟩

theorem TokenBloom.maybeContains_iff (token : Text) :
    bloom.maybeContains token = true ↔ BloomFilter.Maybe bloom.probes bloom.marked token := all_eq_true

/-- No inserted token is denied. -/
theorem TokenBloom.maybeContains_insertAll {tokens : List Text}
    (h : token ∈ tokens) : (bloom.insertAll tokens).maybeContains token = true := by
  obtain ⟨hprobes, hmarked⟩ := bloom.insertAll_marked tokens
  rw [TokenBloom.maybeContains_iff, hprobes, hmarked]
  exact BloomFilter.maybe_insertAll bloom.probes h

end

end LogLake
