import LogLake.Lib.Json
import LogLake.Sql.Eval

/-!
# `attr_get`

The lookup of an attribute in the text of a JSON object.
-/

namespace LogLake

open JsonText

/-- What the repository takes from `serde_json`: parsing a value, parsing a quoted string, and writing a value. -/
structure Serde where
  fromStr : Text → Option Json
  unquote : Text → Option Text
  toText : Json → Text

/-! ## The scanner -/

def skipWs (t : Text) : Text := t.dropWhile isBlank

/-- `scan_string`, from after the opening quote: what stands before the closing quote, and what follows it. -/
def scanString : Text → Option (Text × Text)
  | [] => none
  | '\\' :: [] => none
  | '\\' :: c :: rest => (scanString rest).map fun r => ('\\' :: c :: r.1, r.2)
  | '"' :: rest => some ([], rest)
  | c :: rest => (scanString rest).map fun r => (c :: r.1, r.2)

/-- What a scan finds from a position, put after a part it has run through already. -/
def consumed (part : Text) (o : Option (Text × Text)) : Option (Text × Text) := o.map fun r => (part ++ r.1, r.2)

/-- Where a position of a nested value is: outside of strings, inside one, or inside one and after a backslash. -/
inductive ScanMode where
  | outside | quoted | escaped
  deriving DecidableEq

/-- The loop of `scan_value_end` over a nested value, with the depth reached. -/
def scanNested (depth : Nat) (mode : ScanMode) : Text → Option (Text × Text)
  | [] => none
  | c :: rest => match mode with
    | .escaped => consumed [c] (scanNested depth .quoted rest)
    | .quoted =>
      consumed [c] (scanNested depth (if c = '\\' then .escaped else if c = '"' then .outside else .quoted) rest)
    | .outside =>
      if c = '"' then consumed [c] (scanNested depth .quoted rest)
      else if c = '{' ∨ c = '[' then consumed [c] (scanNested (depth + 1) .outside rest)
      else if c = '}' ∨ c = ']' then
        if depth - 1 = 0 then some ([c], rest) else consumed [c] (scanNested (depth - 1) .outside rest)
      else consumed [c] (scanNested depth .outside rest)

/-- The characters that end a number, `true`, `false` or `null`. -/
def isDelimiter (c : Char) : Bool := c == ',' || c == '}' || c == ']' || isBlank c

/-- `scan_value_end`: the value at a position, and what follows it. -/
def scanValueEnd : Text → Option (Text × Text)
  | [] => none
  | c :: rest =>
    if c = '"' then (scanString rest).map fun r => ('"' :: (r.1 ++ ['"']), r.2)
    else if c = '{' ∨ c = '[' then scanNested 0 .outside (c :: rest)
    else
      let value := (c :: rest).takeWhile fun c => !isDelimiter c
      if value = [] then none else some (value, (c :: rest).dropWhile fun c => !isDelimiter c)

/-- Whether a name as it is spelled is the key. -/
def Serde.keyMatches (S : Serde) (rawKey key : Text) : Bool :=
  if '\\' ∈ rawKey then S.unquote ('"' :: (rawKey ++ ['"'])) = some key else rawKey = key

/-- What follows a character that must stand at the position. -/
def expect (c : Char) : Text → Option Text
  | [] => none
  | d :: rest => if d = c then some rest else none

/-- The loop of `find_top_level_value`, from after the opening brace or a comma, for at most a number of members. -/
def Serde.findMember (S : Serde) (key : Text) : Nat → Text → Option Text
  | 0, _ => none
  | fuel + 1, t =>
    (expect '"' (skipWs t)).bind fun rest => (scanString rest).bind fun name =>
      (expect ':' (skipWs name.2)).bind fun rest => (scanValueEnd (skipWs rest)).bind fun value =>
        if S.keyMatches name.1 key then some value.1 else (expect ',' (skipWs value.2)).bind (S.findMember key fuel)

/-- `find_top_level_value`; a text has fewer members than characters. -/
def Serde.findTopLevelValue (S : Serde) (json key : Text) : Option Text :=
  (expect '{' (skipWs json)).bind (S.findMember key json.length)

def splitOnce (sep : Char) : Text → Option (Text × Text)
  | [] => none
  | c :: rest => if c = sep then some ([], rest) else (splitOnce sep rest).map fun r => (c :: r.1, r.2)

/-- The recursion of `find_value_path`, for at most a number of dots. -/
def Serde.findValuePathUpTo (S : Serde) : Nat → Text → Text → Option Text
  | dots, json, key => (S.findTopLevelValue json key).or <| match dots with
    | 0 => none
    | dots + 1 => (splitOnce '.' key).bind fun parts =>
      (S.findTopLevelValue json parts.1).bind fun inner => S.findValuePathUpTo dots inner parts.2

def Serde.findValuePath (S : Serde) (json key : Text) : Option Text := S.findValuePathUpTo key.length json key

/-- The text of a value found: none for `null`. -/
def Serde.cellText (S : Serde) : Json → Option Text
  | .null => none
  | .string s => some s
  | v => some (S.toText v)

def Serde.jsonAttrLookup (S : Serde) (attributes key : Text) : Option Text :=
  (S.findValuePath attributes key).bind fun raw => (S.fromStr raw).bind S.cellText

/-! ## The function -/

def Value.ofText : Option Text → Value
  | some t => .text t
  | none => .null

def Serde.attrGet (S : Serde) : List Value → Value
  | [.text attributes, .text key] => .ofText (S.jsonAttrLookup attributes key)
  | _ => .null

/-- An engine with `attr_get` registered. -/
def Engine.withAttrGet (E : Engine) (S : Serde) : Engine :=
  { E with call := fun name args values => if name = "attr_get".toList then S.attrGet values else E.call name args values }

end LogLake
