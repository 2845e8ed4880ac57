import LogLake.Bloom

/-!
# The stored form of blooms

A bloom is stored behind a magic and a version, a list of them behind lengths, and both are written in hex. A text is taken
as its bytes.
-/

namespace LogLake

/-! ## Hex -/

/-- `HEX`, at a nibble. -/
def hexDigit (n : UInt8) : UInt8 := ("0123456789abcdef".toList.map fun c => c.toNat.toUInt8).getD n.toNat 0

variable (bytes : List UInt8)

/-- The loop of `to_hex` and of `rowgroup_blooms_to_hex`. -/
def bytesToHex : List UInt8 :=
  bytes.flatMap fun (byte : UInt8) => [hexDigit (byte >>> 4), hexDigit (byte &&& 0x0f)]

def nibble (c : UInt8) : Option UInt8 :=
  if 48 ≤ c ∧ c ≤ 57 then some (c - 48)
  else if 97 ≤ c ∧ c ≤ 102 then some (c - 97 + 10)
  else if 65 ≤ c ∧ c ≤ 70 then some (c - 65 + 10)
  else none

def pairsFromHex : List UInt8 → Option (List UInt8)
  | hi :: lo :: rest =>
    (nibble hi).bind fun h => (nibble lo).bind fun l => (pairsFromHex rest).map fun bytes => (h <<< 4 ||| l) :: bytes
  | _ => some []

def bytesFromHex (s : List UInt8) : Option (List UInt8) := if s.length % 2 = 0 then pairsFromHex s else none

/-! ## One bloom -/

def bloomMagic : List UInt8 := [76, 75, 66, 70]

def bloomFormatVersion : UInt8 := 1

variable (bloom : TokenBloom)

def TokenBloom.toBytes : List UInt8 := bloomMagic ++ bloomFormatVersion :: bloom.k :: bloom.bits

/-- The fields of `TokenBloom::from_bytes` behind the magic. -/
def TokenBloom.ofFields : List UInt8 → Option TokenBloom
  | version :: k :: bits =>
    if h : version = bloomFormatVersion ∧ bits ≠ [] ∧ 0 < k then some ⟨bits, k, h.2.1, h.2.2⟩ else none
  | _ => none

def TokenBloom.fromBytes : Option TokenBloom := (bytes.dropPrefix? bloomMagic).bind ofFields

def TokenBloom.toHex : List UInt8 := bytesToHex bloom.toBytes

def TokenBloom.fromHex (s : List UInt8) : Option TokenBloom := (bytesFromHex s).bind fromBytes

/-! ## The blooms of the row groups -/

def rowgroupListMagic : List UInt8 := [76, 75, 66, 76]

/-- A length, cast to `u32`, in little-endian order. -/
def u32Bytes (n : Nat) : List UInt8 := [n.toUInt8, (n / 256).toUInt8, (n / 65536).toUInt8, (n / 16777216).toUInt8]

/-- `read_u32`: the length, and what follows it. -/
def readU32 : List UInt8 → Option (Nat × List UInt8)
  | a :: b :: c :: d :: rest => some (a.toNat + 256 * b.toNat + 65536 * c.toNat + 16777216 * d.toNat, rest)
  | _ => none

def bloomEntry : List UInt8 := u32Bytes bloom.toBytes.length ++ bloom.toBytes

def rowgroupBloomsToHex (blooms : List TokenBloom) : List UInt8 :=
  bytesToHex (rowgroupListMagic ++ bloomFormatVersion :: (u32Bytes blooms.length ++ blooms.flatMap bloomEntry))

/-- One turn of the loop of `rowgroup_blooms_from_hex`. -/
def readBloom : Option (TokenBloom × List UInt8) :=
  (readU32 bytes).bind fun (len, rest) =>
    if len ≤ rest.length then (TokenBloom.fromBytes (rest.take len)).map fun bloom => (bloom, rest.drop len) else none

def readBlooms : Nat → List UInt8 → Option (List TokenBloom)
  | 0, _ => some []
  | count + 1, bytes => (readBloom bytes).bind fun (bloom, rest) => (readBlooms count rest).map (bloom :: ·)

/-- What stands behind the magic of the list. -/
def readRowgroupList : List UInt8 → Option (List TokenBloom)
  | version :: rest =>
    if version = bloomFormatVersion then (readU32 rest).bind fun (count, entries) => readBlooms count entries else none
  | [] => none

def rowgroupBloomsFromHex (s : List UInt8) : Option (List TokenBloom) :=
  ((bytesFromHex s).bind fun bytes => bytes.dropPrefix? rowgroupListMagic).bind readRowgroupList

/-- The sizes that their casts to `u32` keep. -/
def Storable (blooms : List TokenBloom) : Prop :=
  blooms.length < 4294967296 ∧ ∀ bloom ∈ blooms, bloom.bits.length + 6 < 4294967296

end LogLake
