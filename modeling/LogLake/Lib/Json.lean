import Mathlib

/-!
# JSON documents

JSON values, and documents: values with the spelling of their strings and numbers and the blanks
around their parts, as RFC 8259 allows them.
-/

namespace JsonText

/-- A JSON value; a number is kept as it is spelled. -/
inductive Json where
  | null
  | bool (b : Bool)
  | number (token : List Char)
  | string (s : List Char)
  | array (items : List Json)
  | object (members : List (List Char × Json))

/-! ## Tokens -/

def isBlank (c : Char) : Bool := c == ' ' || c == '\t' || c == '\n' || c == '\r'

/-- A run of blanks. -/
def Gap : Type := { t : List Char // t.all isBlank = true }

def isNumberChar (c : Char) : Bool := c.isDigit || c == '-' || c == '+' || c == '.' || c == 'e' || c == 'E'

/-- A number token: what matters here is that it is not empty and what it is made of. -/
def NumberToken : Type := { t : List Char // t ≠ [] ∧ t.all isNumberChar = true }

/-- A text between quotes that has no quote of its own, other than escaped ones. -/
def closed : List Char → Bool
  | [] => true
  | '\\' :: [] => false
  | '\\' :: _ :: rest => closed rest
  | '"' :: _ => false
  | _ :: rest => closed rest

/-- A string token: what stands between the quotes, and the string it stands for. -/
structure StringToken where
  raw : List Char
  decoded : List Char
  raw_closed : closed raw = true
  decoded_eq : '\\' ∉ raw → decoded = raw

def StringToken.text (s : StringToken) : List Char := '"' :: (s.raw ++ ['"'])

def StringToken.plain (t : List Char) (h : closed t = true) : StringToken := ⟨t, t, h, fun _ => rfl⟩

/-! ## Escapes -/

def hexValue (c : Char) : Option Nat :=
  if c.isDigit then some (c.toNat - '0'.toNat)
  else if 'a' ≤ c ∧ c ≤ 'f' then some (c.toNat - 'a'.toNat + 10)
  else if 'A' ≤ c ∧ c ≤ 'F' then some (c.toNat - 'A'.toNat + 10)
  else none

/-- The code unit four hexadecimal digits stand for. -/
def codeUnit (a b c d : Char) : Option Nat := do
  return (((← hexValue a) * 16 + (← hexValue b)) * 16 + (← hexValue c)) * 16 + (← hexValue d)

def escapedChar : Char → Option Char
  | '"' => some '"'
  | '\\' => some '\\'
  | '/' => some '/'
  | 'b' => some '\x08'
  | 'f' => some '\x0c'
  | 'n' => some '\n'
  | 'r' => some '\r'
  | 't' => some '\t'
  | _ => none

/-- The string that is spelled between quotes, none when there is an escape without a meaning: an unknown one, or half of a
surrogate pair. -/
def unescape : List Char → Option (List Char)
  | [] => some []
  | '\\' :: 'u' :: a :: b :: c :: d :: rest => (codeUnit a b c d).bind fun high =>
    if 0xd800 ≤ high ∧ high < 0xdc00 then
      match rest with
      | '\\' :: 'u' :: e :: f :: g :: h :: rest => (codeUnit e f g h).bind fun low =>
        if 0xdc00 ≤ low ∧ low < 0xe000 then
          (unescape rest).map (Char.ofNat (0x10000 + (high - 0xd800) * 0x400 + (low - 0xdc00)) :: ·)
        else none
      | _ => none
    else if 0xdc00 ≤ high ∧ high < 0xe000 then none
    else (unescape rest).map (Char.ofNat high :: ·)
  | '\\' :: c :: rest => (escapedChar c).bind fun e => (unescape rest).map (e :: ·)
  | c :: rest => if c = '\\' then none else (unescape rest).map (c :: ·)

/-- A text without a backslash stands for itself. -/
theorem unescape_of_plain {raw : List Char} (h : '\\' ∉ raw) : unescape raw = some raw := by
  induction raw with
  | nil => rfl
  | cons c raw ih =>
    obtain ⟨hc, hraw⟩ := not_or.mp (mt List.mem_cons.mpr h)
    have hstep : unescape (c :: raw) = if c = '\\' then none else (unescape raw).map (c :: ·) := by
      refine unescape.eq_4 c raw ?_ ?_
      · exact fun _ _ _ _ _ hc' => absurd hc'.symm hc
      · exact fun _ _ hc' => absurd hc'.symm hc
    rw [hstep, if_neg (Ne.symm hc), ih hraw]
    rfl

/-! ## Documents -/

mutual

inductive Doc where
  | null
  | bool (b : Bool)
  | number (token : NumberToken)
  | string (s : StringToken)
  | emptyArray (gap : Gap)
  | array (items : Items)
  | emptyObject (gap : Gap)
  | object (members : Members)

/-- The items of an array, each with the blanks before and after it. -/
inductive Items where
  | one (before : Gap) (item : Doc) (after : Gap)
  | more (before : Gap) (item : Doc) (after : Gap) (rest : Items)

/-- The members of an object, with the blanks before the name, before and after the colon and after the value. -/
inductive Members where
  | one (before : Gap) (name : StringToken) (beforeColon afterColon : Gap) (item : Doc) (after : Gap)
  | more (before : Gap) (name : StringToken) (beforeColon afterColon : Gap) (item : Doc) (after : Gap) (rest : Members)

end

mutual

def Doc.text : Doc → List Char
  | .null => "null".toList
  | .bool true => "true".toList
  | .bool false => "false".toList
  | .number token => token.val
  | .string s => s.text
  | .emptyArray gap => '[' :: (gap.val ++ [']'])
  | .array items => '[' :: (items.text ++ [']'])
  | .emptyObject gap => '{' :: (gap.val ++ ['}'])
  | .object members => '{' :: (members.text ++ ['}'])

def Items.text : Items → List Char
  | .one before item after => before.val ++ (item.text ++ after.val)
  | .more before item after rest => before.val ++ (item.text ++ (after.val ++ ',' :: rest.text))

def Members.text : Members → List Char
  | .one before name beforeColon afterColon item after =>
    before.val ++ (name.text ++ (beforeColon.val ++ ':' :: (afterColon.val ++ (item.text ++ after.val))))
  | .more before name beforeColon afterColon item after rest =>
    before.val ++ (name.text ++ (beforeColon.val ++ ':' :: (afterColon.val ++ (item.text ++ (after.val ++ ',' :: rest.text)))))

end

mutual

def Doc.value : Doc → Json
  | .null => .null
  | .bool b => .bool b
  | .number token => .number token.val
  | .string s => .string s.decoded
  | .emptyArray _ => .array []
  | .array items => .array items.values
  | .emptyObject _ => .object []
  | .object members => .object members.values

def Items.values : Items → List Json
  | .one _ item _ => [item.value]
  | .more _ item _ rest => item.value :: rest.values

def Members.values : Members → List (List Char × Json)
  | .one _ name _ _ item _ => [(name.decoded, item.value)]
  | .more _ name _ _ item _ rest => (name.decoded, item.value) :: rest.values

end

def Members.docs : Members → List (List Char × Doc)
  | .one _ name _ _ item _ => [(name.decoded, item)]
  | .more _ name _ _ item _ rest => (name.decoded, item) :: rest.docs

def Doc.isObject : Doc → Bool
  | .emptyObject _ | .object _ => true
  | _ => false

/-- The members of an object with their names decoded in some way; a name may stand for no string. -/
def Members.decoded (decode : StringToken → Option (List Char)) : Members → List (Option (List Char) × Doc)
  | .one _ name _ _ item _ => [(decode name, item)]
  | .more _ name _ _ item _ rest => (decode name, item) :: rest.decoded decode

/-- The members of a document that is an object. -/
def Doc.members (decode : StringToken → Option (List Char)) : Doc → Option (List (Option (List Char) × Doc))
  | .emptyObject _ => some []
  | .object members => some (members.decoded decode)
  | _ => none

/-- With every name decoded, the first member of a name is found under it. -/
theorem Members.lookup_decoded (key : List Char) : ∀ members : Members,
    (members.decoded fun name => some name.decoded).lookup (some key) = members.docs.lookup key
  | .one _ _ _ _ _ _ => rfl
  | .more _ name _ _ _ _ rest => by
    rw [Members.decoded, Members.docs, List.lookup_cons, List.lookup_cons, Members.lookup_decoded key rest]
    rfl

/-- The values of an object are those of its members. -/
theorem Members.values_eq : ∀ members : Members, members.values = members.docs.map fun m => (m.1, m.2.value)
  | .one _ _ _ _ _ _ => by rw [Members.values, Members.docs, List.map_singleton]
  | .more _ _ _ _ _ _ rest => by rw [Members.values, Members.docs, List.map_cons, Members.values_eq rest]

end JsonText
