import LogLake.BloomCodec
import LogLake.Lemmas.Bloom

/-! # What the decoders of blooms give back -/

namespace LogLake

open Option Nat List

theorem nibble_hexDigit (byte : UInt8) :
    ∃ h l, nibble (hexDigit (byte >>> 4)) = some h ∧ nibble (hexDigit (byte &&& 0x0f)) = some l ∧ (h <<< 4 ||| l) = byte := by
  have hall : ∀ n : Fin 256, (nibble (hexDigit (UInt8.ofFin n >>> 4))).bind (fun h =>
      (nibble (hexDigit (UInt8.ofFin n &&& 0x0f))).map fun l => h <<< 4 ||| l) = some (UInt8.ofFin n) := by
    decide +kernel
  obtain ⟨h, hh, hl⟩ := bind_eq_some_iff.mp (hall byte.toFin)
  obtain ⟨l, hl, hbyte⟩ := map_eq_some_iff.mp hl
  exact ⟨h, l, hh, hl, hbyte⟩

/-- Hexadecimal digits read back are the bytes. -/
theorem bytesFromHex_bytesToHex (bytes : List UInt8) : bytesFromHex (bytesToHex bytes) = some bytes := by
  have hlength : (bytesToHex bytes).length = 2 * bytes.length := by simp [bytesToHex, length_flatMap, mul_comm]
  rw [bytesFromHex, if_pos (by omega)]
  clear hlength
  induction bytes with
  | nil => rfl
  | cons byte bytes ih =>
    obtain ⟨h, l, hh, hl, hbyte⟩ := nibble_hexDigit byte
    change pairsFromHex (hexDigit (byte >>> 4) :: hexDigit (byte &&& 0x0f) :: bytesToHex bytes) = _
    rw [pairsFromHex, hh, hl, ih, ← hbyte]
    rfl

/-- A filter read back from its bytes is the filter. -/
theorem TokenBloom.fromBytes_toBytes (bloom : TokenBloom) : fromBytes bloom.toBytes = some bloom :=
  dif_pos ⟨rfl, bloom.bits_ne_nil, bloom.k_pos⟩

theorem TokenBloom.fromHex_toHex (bloom : TokenBloom) : fromHex bloom.toHex = some bloom := by
  rw [fromHex, toHex, bytesFromHex_bytesToHex, bind_some, fromBytes_toBytes]

theorem readU32_u32Bytes (n : Nat) (rest : List UInt8) : readU32 (u32Bytes n ++ rest) = some (n % 4294967296, rest) := by
  simp only [u32Bytes, cons_append, nil_append, readU32, toUInt8, UInt8.toNat_ofNat']
  congr 2
  omega

variable {bloom : TokenBloom}

theorem TokenBloom.toBytes_of_fromBytes {bytes : List UInt8} (h : fromBytes bytes = some bloom) : bloom.toBytes = bytes := by
  obtain ⟨fields, hfields, hbloom⟩ := bind_eq_some_iff.mp h
  obtain ⟨magic, rfl, hmagic⟩ := dropPrefix?_eq_some_iff.mp hfields
  rw [beq_iff_eq] at hmagic
  subst hmagic
  unfold ofFields at hbloom
  split at hbloom
  · split at hbloom
    · rename_i hvalid
      cases hbloom
      rw [toBytes, ← hvalid.1]
    · cases hbloom
  · cases hbloom

theorem TokenBloom.length_toBytes (bloom : TokenBloom) : bloom.toBytes.length = bloom.bits.length + 6 := by
  simp [toBytes, bloomMagic]

theorem readBloom_bloomEntry (bloom : TokenBloom) (rest : List UInt8) : readBloom (bloomEntry bloom ++ rest) =
      (TokenBloom.fromBytes ((bloom.toBytes ++ rest).take (bloom.toBytes.length % 4294967296))).map fun b =>
        (b, (bloom.toBytes ++ rest).drop (bloom.toBytes.length % 4294967296)) := by
  have hle : bloom.toBytes.length % 4294967296 ≤ (bloom.toBytes ++ rest).length := by
    rw [length_append]
    omega
  rw [readBloom, bloomEntry, append_assoc, readU32_u32Bytes, bind_some]
  exact if_pos hle

/-- An entry whose length fits its field is read back. -/
theorem readBloom_of_fits (h : bloom.bits.length + 6 < 4294967296) (rest : List UInt8) :
    readBloom (bloomEntry bloom ++ rest) = some (bloom, rest) := by
  rw [readBloom_bloomEntry, mod_eq_of_lt (by rwa [bloom.length_toBytes]), take_left, drop_left,
    bloom.fromBytes_toBytes, map_some]

/-- An entry that is read back has a length that fits its field. -/
theorem fits_of_readBloom {rest rest' : List UInt8}
    (h : readBloom (bloomEntry bloom ++ rest) = some (bloom, rest')) : bloom.bits.length + 6 < 4294967296 := by
  rw [readBloom_bloomEntry] at h
  obtain ⟨other, hother, heq⟩ := map_eq_some_iff.mp h
  obtain ⟨rfl, -⟩ := Prod.mk.inj heq
  have hlength := congrArg length (TokenBloom.toBytes_of_fromBytes hother)
  rw [length_take] at hlength
  rw [← other.length_toBytes]
  omega

theorem length_readBlooms {count : Nat} {bytes : List UInt8} {blooms : List TokenBloom}
    (h : readBlooms count bytes = some blooms) : blooms.length = count := by
  induction count generalizing bytes blooms with
  | zero =>
    cases h
    rfl
  | succ count ih =>
    obtain ⟨⟨bloom, rest⟩, -, h⟩ := bind_eq_some_iff.mp h
    obtain ⟨others, hothers, rfl⟩ := map_eq_some_iff.mp h
    rw [length_cons, ih hothers]

/-- The loop gives the blooms back exactly when the length of each entry fits. -/
theorem readBlooms_entries_iff (blooms : List TokenBloom) :
    readBlooms blooms.length (blooms.flatMap bloomEntry) = some blooms ↔
      ∀ bloom ∈ blooms, bloom.bits.length + 6 < 4294967296 := by
  induction blooms with
  | nil => simp [readBlooms]
  | cons bloom blooms ih =>
    rw [forall_mem_cons, ← ih, length_cons, readBlooms, flatMap_cons]
    constructor
    · intro h
      obtain ⟨⟨other, rest⟩, hread, h⟩ := bind_eq_some_iff.mp h
      obtain ⟨others, hothers, heq⟩ := map_eq_some_iff.mp h
      obtain ⟨rfl, rfl⟩ := cons.inj heq
      have hfits := fits_of_readBloom hread
      rw [readBloom_of_fits hfits] at hread
      cases hread
      exact ⟨hfits, hothers⟩
    · rintro ⟨hfits, hrest⟩
      rw [readBloom_of_fits hfits, bind_some]
      exact congrArg (Option.map (bloom :: ·)) hrest

/-- The filters of the row groups are read back exactly when every length fits. -/
theorem rowgroupBlooms_roundTrip_iff (blooms : List TokenBloom) :
    rowgroupBloomsFromHex (rowgroupBloomsToHex blooms) = some blooms ↔ Storable blooms := by
  have hread : rowgroupBloomsFromHex (rowgroupBloomsToHex blooms) =
      readBlooms (blooms.length % 4294967296) (blooms.flatMap bloomEntry) := by
    rw [rowgroupBloomsFromHex, rowgroupBloomsToHex, bytesFromHex_bytesToHex]
    change readRowgroupList (bloomFormatVersion :: (u32Bytes blooms.length ++ blooms.flatMap bloomEntry)) = _
    rw [readRowgroupList, if_pos rfl, readU32_u32Bytes, bind_some]
  rw [hread, Storable, ← readBlooms_entries_iff]
  constructor
  · intro h
    have hlt : blooms.length < 4294967296 := by
      have hcount := length_readBlooms h
      omega
    rw [mod_eq_of_lt hlt] at h
    exact ⟨hlt, h⟩
  · rintro ⟨hlt, h⟩
    rw [mod_eq_of_lt hlt, h]

theorem TokenBloom.probe_lt (bloom : TokenBloom) (token : Text) :
    ∀ bit ∈ probePositions bloom.bits.length bloom.k token, bit / 8 < bloom.bits.length := by
  intro bit hbit
  obtain ⟨i, -, rfl⟩ := mem_map.mp hbit
  have hpos : 0 < bloom.bits.length := length_pos_iff_ne_nil.mpr bloom.bits_ne_nil
  rw [div_lt_iff_lt_mul (by decide)]
  exact mod_lt _ (by omega)

theorem exists_bloom {bytes : Nat} (h : 0 < bytes) : ∃ bloom : TokenBloom, bloom.bits.length = bytes :=
  ⟨.empty bytes 1 h (by decide), length_replicate⟩

end LogLake
