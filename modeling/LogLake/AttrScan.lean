import LogLake.AttrGet

/-!
# The scanner of `attr_get` by positions

`find_top_level_value` as it runs over positions of the text. An access by index or a slice outside of the text is a fault, where
the source would panic; `get` outside of it finds nothing.
-/

namespace LogLake

open JsonText

inductive Fault where
  | outside | underflow
  deriving DecidableEq

section

variable (t : Text)

/-- `b[j]`. -/
def indexText (j : Nat) : Except Fault Char :=
  match t[j]? with
  | some c => .ok c
  | none => .error .outside

/-- `&json[start..stop]`. -/
def sliceText (start stop : Nat) : Except Fault Text :=
  if start ≤ stop ∧ stop ≤ t.length then .ok ((t.take stop).drop start) else .error .outside

/-- `skip_ws`. -/
def skipWsFrom (i : Nat) : Nat :=
  if h : i < t.length then if isBlank t[i] then skipWsFrom (i + 1) else i else i
termination_by t.length - i

/-- What `scan_string` returns: where the string begins and ends, and the position after its closing quote. -/
structure StringSpan where
  innerStart : Nat
  innerEnd : Nat
  afterClose : Nat
  deriving DecidableEq

/-- The loop of `scan_string`. -/
def scanStringFrom (start j : Nat) : Except Fault (Option StringSpan) :=
  if h : j < t.length then do
    let c ← indexText t j
    if c = '\\' then scanStringFrom start (j + 2)
    else if c = '"' then return some ⟨start, j, j + 1⟩
    else scanStringFrom start (j + 1)
  else return none
termination_by t.length - j

def scanStringAt (i : Nat) : Except Fault (Option StringSpan) := scanStringFrom t (i + 1) (i + 1)

theorem indexText_of_lt {t : Text} {j : Nat} (h : j < t.length) : indexText t j = .ok t[j] := by
  unfold indexText
  rw [List.getElem?_eq_getElem h]

/-- A string ends after it begins. -/
theorem scanStringFrom_lt {start j : Nat} {span : StringSpan} (h : scanStringFrom t start j = .ok (some span)) :
    j < span.afterClose := by
  fun_induction scanStringFrom t start j with
  | case1 j hj ih1 ih2 =>
    rw [indexText_of_lt hj] at h
    dsimp only [bind, Except.bind] at h
    split at h
    · have := ih1 h
      omega
    · split at h
      · cases h
        exact Nat.lt_succ_self j
      · have := ih2 h
        omega
  | case2 => nomatch h

/-- The loop of `scan_value_end` over a nested value. -/
def scanNestedFrom (depth j : Nat) : Except Fault (Option Nat) :=
  if hj : j < t.length then do
    let c ← indexText t j
    if c = '"' then
      match _hspan : scanStringAt t j with
      | .ok (some span) => scanNestedFrom depth span.afterClose
      | .ok none => return none
      | .error fault => .error fault
    else if c = '{' ∨ c = '[' then scanNestedFrom (depth + 1) (j + 1)
    else if c = '}' ∨ c = ']' then
      if depth = 0 then .error .underflow
      else if depth - 1 = 0 then return some (j + 1)
      else scanNestedFrom (depth - 1) (j + 1)
    else scanNestedFrom depth (j + 1)
  else return none
termination_by t.length - j
decreasing_by
  · have := scanStringFrom_lt t _hspan
    omega
  all_goals omega

/-- The loop of `scan_value_end` over a number, `true`, `false` or `null`. -/
def scanScalarFrom (j : Nat) : Except Fault Nat :=
  if h : j < t.length then do
    let c ← indexText t j
    if isDelimiter c then return j else scanScalarFrom (j + 1)
  else return j
termination_by t.length - j

def scanValueEndAt (i : Nat) : Except Fault (Option Nat) :=
  match t[i]? with
  | none => return none
  | some c =>
    if c = '"' then do return (← scanStringAt t i).map StringSpan.afterClose
    else if c = '{' ∨ c = '[' then scanNestedFrom t 0 i
    else do
      let j ← scanScalarFrom t i
      return if i < j then some j else none

end

variable (S : Serde) (json key : Text)

/-- Whether a name, given by its positions and that of its opening quote, is the key. -/
def Serde.nameMatches (quote : Nat) (name : StringSpan) : Except Fault Bool := do
  let rawKey ← sliceText json name.innerStart name.innerEnd
  if '\\' ∈ rawKey then
    let quoted ← sliceText json quote name.afterClose
    return S.unquote quoted = some key
  else return rawKey = key

/-- The loop of `find_top_level_value` from a position, for at most a number of members. -/
def Serde.findMemberFrom : Nat → Nat → Except Fault (Option Text)
  | 0, _ => return none
  | fuel + 1, i => do
    let quote := skipWsFrom json i
    if json[quote]? = some '"' then
      let some name ← scanStringAt json quote | return none
      let colon := skipWsFrom json name.afterClose
      if json[colon]? = some ':' then
        let vStart := skipWsFrom json (colon + 1)
        let some vEnd ← scanValueEndAt json vStart | return none
        if ← S.nameMatches json key quote name then return some (← sliceText json vStart vEnd)
        let comma := skipWsFrom json vEnd
        if json[comma]? = some ',' then Serde.findMemberFrom fuel (comma + 1) else return none
      else return none
    else return none

def Serde.findTopLevelValueAt : Except Fault (Option Text) :=
  let brace := skipWsFrom json 0
  if json[brace]? = some '{' then S.findMemberFrom json key json.length (brace + 1) else return none

end LogLake
