import LogLake.Lib.BloomFilter
import LogLake.Text

/-!
# Tokens, trigrams and the token bloom

The text analysis shared by blooms, inverted indexes and queries, and the serializable bloom filter
that holds the trigrams of a file or a row group.
-/

namespace LogLake

/-! ## Tokenizers -/

def minTokenLen : Nat := 3

def maxTokensPerRow : Nat := 64

inductive Tokenizer
  | default
  | raw
  | stem
deriving DecidableEq, Repr

/-- The separators between tokens: everything but ASCII letters and digits. -/
def isSeparator (c : Char) : Bool := !c.isAlphanum

/-- The maximal runs of ASCII letters and digits of a text, with the empty runs between adjacent separators. -/
def pieces (raw : Text) : List Text := raw.splitOnP isSeparator

/-- The loop of `default_tokenize` over the remaining pieces, with the tokens pushed so far. -/
def defaultTokenizeLoop : List Text → List Text → List Text
  | [], out => out
  | piece :: rest, out =>
    -- A piece is ASCII, so its length in bytes is its length in characters.
    if piece.length < minTokenLen then defaultTokenizeLoop rest out
    else
      let out := out ++ [toAsciiLowercase piece]
      if maxTokensPerRow ≤ out.length then out else defaultTokenizeLoop rest out

def defaultTokenize (raw : Text) : List Text := defaultTokenizeLoop (pieces raw) []

def isVowel (c : Char) : Bool := c == 'a' || c == 'e' || c == 'i' || c == 'o' || c == 'u' || c == 'y'

def stripSuffixWithGuard (token suffix : Text) (minStemLen : Nat) : Option Text :=
  (stripSuffix suffix token).bind fun stem =>
    if minStemLen ≤ stem.length ∧ stem.any isVowel then some stem else none

variable (token : Text)

def stripPluralEs : Option Text :=
  (stripSuffix "es".toList token).bind fun stem => if minTokenLen ≤ stem.length ∧ stem ≠ [] then some stem else none

def stripPluralS : Option Text :=
  (stripSuffix "s".toList token).bind fun stem =>
    if ¬ "ss".toList.isSuffixOf token ∧ minTokenLen ≤ stem.length then some stem else none

/-- The suffix rules of `lite_stem`, in order. -/
def stripEnding : Text :=
  ((((stripSuffixWithGuard token "ing".toList 4).or (stripSuffixWithGuard token "ed".toList 3)).or
    (stripPluralEs token)).or (stripPluralS token)).getD token

/-- `lite_stem`: the suffix rules, then the minimum length again. -/
def liteStem : Option Text :=
  if minTokenLen ≤ (stripEnding token).length then some (stripEnding token) else none

def Tokenizer.tokenize : Tokenizer → Text → List Text
  | .default, text => defaultTokenize text
  | .raw, text => [toAsciiLowercase text]
  | .stem, text => (defaultTokenize text).filterMap liteStem

/-- `normalize_query_term`: a term that may have been indexed, as the tokenizer would have written it. -/
def normalizeQueryTerm (term : Text) : Option Text :=
  let trimmed := trim term
  if trimmed.length < minTokenLen ∨ ¬ trimmed.all Char.isAlphanum then none else some (toAsciiLowercase trimmed)

/-! ## Trigrams -/

def trigramLen : Nat := 3

/-- `trigrams`: the three-character windows of the lower-cased text. -/
def trigrams (raw : Text) : List Text := (toAsciiLowercase raw).windows trigramLen

/-- `query_trigrams`: the distinct trigrams of a query substring, `none` when it has none. -/
def queryTrigrams (substr : Text) : Option (List Text) :=
  if trigrams substr = [] then none else some (trigrams substr).eraseDups

/-! ## The bloom filter -/

def fnv1a (data : List UInt8) (seed : UInt64) : UInt64 :=
  data.foldl (fun hash byte => (hash ^^^ byte.toUInt64) * 0x100000001b3) seed

def doubleHash : UInt64 × UInt64 :=
  (fnv1a (asBytes token) 0xcbf29ce484222325, fnv1a (asBytes token) 0x10000000000001b3 ||| 1)

/-- A token bloom: its bits, at least one byte of them, and the number of probes per key, at least one. -/
structure TokenBloom where
  bits : List UInt8
  k : UInt8
  bits_ne_nil : bits ≠ []
  k_pos : 0 < k
deriving DecidableEq

/-- The positions a token occupies in a filter of `bytes` bytes and `k` probes. -/
def probePositions (bytes : Nat) (k : UInt8) (token : Text) : List Nat :=
  (List.range k.toNat).map fun i =>
    ((doubleHash token).1 + UInt64.ofNat i * (doubleHash token).2).toNat % (bytes * 8)

def bitMask (bit : Nat) : UInt8 := 1 <<< UInt8.ofNat (bit % 8)

def setBit (bits : List UInt8) (bit : Nat) : List UInt8 := bits.modify (bit / 8) (· ||| bitMask bit)

def testBit (bits : List UInt8) (bit : Nat) : Bool := bits.getD (bit / 8) 0 &&& bitMask bit != 0

theorem length_foldl_setBit (positions : List Nat) (bits : List UInt8) :
    (positions.foldl setBit bits).length = bits.length := by
  induction positions generalizing bits with
  | nil => rfl
  | cons p ps ih => rw [List.foldl_cons, ih, setBit, List.length_modify]

variable (bloom : TokenBloom)

def TokenBloom.insert (token : Text) : TokenBloom where
  bits := (probePositions bloom.bits.length bloom.k token).foldl setBit bloom.bits
  k := bloom.k
  bits_ne_nil := by
    rw [← List.length_pos_iff_ne_nil, length_foldl_setBit, List.length_pos_iff_ne_nil]
    exact bloom.bits_ne_nil
  k_pos := bloom.k_pos

/-- `TokenBloom::maybe_contains`: `false` only when some position of the token is not marked. -/
def TokenBloom.maybeContains (token : Text) : Bool :=
  (probePositions bloom.bits.length bloom.k token).all (testBit bloom.bits)

def TokenBloom.empty (bytes : Nat) (k : UInt8) (hbytes : 0 < bytes) (hk : 0 < k) : TokenBloom where
  bits := List.replicate bytes 0
  k := k
  bits_ne_nil := by rw [← List.length_pos_iff_ne_nil, List.length_replicate]; exact hbytes
  k_pos := hk

def TokenBloom.insertAll (tokens : List Text) : TokenBloom :=
  tokens.foldl TokenBloom.insert bloom

end LogLake
