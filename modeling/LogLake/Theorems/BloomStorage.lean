import LogLake.Lemmas.BloomCodec

/-! # Blooms through storage -/

namespace LogLake

open TokenBloom

/-- Inserted tokens are reported, also by the filter that is read back from its bytes or its hex text; what the decoders accept
probes inside its bits; and the blooms of the row groups are read back. All of it holds exactly when every length fits its
`u32`. -/
theorem blooms_stored_iff (bloom : TokenBloom) (tokens : List Text) (blooms : List TokenBloom) :
    ((∀ token ∈ tokens, (bloom.insertAll tokens).maybeContains token = true ∧
        (fromBytes (bloom.insertAll tokens).toBytes).map (·.maybeContains token) = some true ∧
        (fromHex (bloom.insertAll tokens).toHex).map (·.maybeContains token) = some true) ∧
      (∀ input read, fromBytes input = some read ∨ fromHex input = some read ∨
          (∃ list, rowgroupBloomsFromHex input = some list ∧ read ∈ list) →
        ∀ token, ∀ bit ∈ probePositions read.bits.length read.k token, bit / 8 < read.bits.length) ∧
      rowgroupBloomsFromHex (rowgroupBloomsToHex blooms) = some blooms) ↔ Storable blooms := by
  constructor
  · rintro ⟨-, -, hread⟩
    exact (rowgroupBlooms_roundTrip_iff blooms).mp hread
  · intro hstorable
    refine ⟨fun token htoken => ?_, fun _ read _ token => read.probe_lt token,
      (rowgroupBlooms_roundTrip_iff blooms).mpr hstorable⟩
    have hmaybe := bloom.maybeContains_insertAll htoken
    rw [fromBytes_toBytes, fromHex_toHex, Option.map_some, hmaybe]
    exact ⟨rfl, rfl, rfl⟩

/-- A bloom whose entry takes 2^32 bytes is written with the length zero. -/
theorem rowgroup_bloom_lost : ∃ bloom : TokenBloom, bloom.bits.length = 4294967290 ∧
    rowgroupBloomsFromHex (rowgroupBloomsToHex [bloom]) ≠ some [bloom] := by
  obtain ⟨bloom, hlength⟩ := exists_bloom (show 0 < 4294967290 by decide)
  refine ⟨bloom, hlength, fun h => ?_⟩
  have hfits := ((rowgroupBlooms_roundTrip_iff [bloom]).mp h).2 bloom (List.mem_singleton_self bloom)
  omega

end LogLake
