import LogLake.Lemmas.AttrScan
import LogLake.Lemmas.Promote

/-! # Promoted columns and `attr_get` -/

namespace LogLake

open JsonText AssocList List

/-- The text of a document with blanks around it. -/
def attributesText (before : Gap) (d : Doc) (after : Gap) : Text := before.val ++ (d.text ++ after.val)

section

variable {S : Serde} {before after : Gap} {d : Doc} {members : List (Text × Json)}

section

variable (hd : d.value = .object members)
include hd

theorem promotedCell_eq (hwhole : S.fromStr (attributesText before d after) = some d.value) (key : Text) :
    S.promotedCell (some (attributesText before d after)) key = (attrLookup members key).bind S.cellText := by
  rw [Serde.promotedCell, Option.bind_some, hwhole, hd]

theorem jsonAttrLookup_eq (hreads : S.Reads d) (key : Text) : S.jsonAttrLookup (attributesText before d after) key =
      (firstPath key.length (.object members) key).bind S.cellText := by
  rw [← hd]
  exact Serde.jsonAttrLookup_doc before after hreads key

theorem holdsAttrGet_of_plain (hreads : S.Reads d)
    (hwhole : S.fromStr (attributesText before d after) = some d.value) {promoted : PromotedColumns} {row : Row}
    (hattributes : row "attributes".toList = .text (attributesText before d after))
    (hcolumns : ∀ key column, promoted.lookup key = some column → Plain members key ∧
      row column = .ofText (S.promotedCell (some (attributesText before d after)) key)) : HoldsAttrGet S promoted row := by
  intro key column hlookup
  obtain ⟨hplain, hcell⟩ := hcolumns key column hlookup
  rw [hcell, hattributes, Serde.attrGet, promotedCell_eq hd hwhole, jsonAttrLookup_eq hd hreads,
    firstPath_eq_attrLookup hplain]

end

end

/-! ## Three objects -/

def noGap : Gap := ⟨[], rfl⟩

def docOne : Doc := .number ⟨['1'], by decide⟩
def docTwo : Doc := .number ⟨['2'], by decide⟩

def single (name : StringToken) (item : Doc) : Doc := .object (.one noGap name noGap noGap item noGap)

def nameA : StringToken := .plain ['a'] rfl
def nameB : StringToken := .plain ['b'] rfl
def nameBC : StringToken := .plain ['b', '.', 'c'] rfl

def nestedAB : Doc := single nameA (single nameB docOne)

def repeatedA : Doc := .object (.more noGap nameA noGap noGap docOne noGap (.one noGap nameA noGap noGap docTwo noGap))

def nestedDotted : Doc := single nameA (single nameBC docOne)

def sampleDocs : List Doc := [docOne, docTwo, nestedAB, single nameB docOne, repeatedA, nestedDotted, single nameBC docOne]

def sampleSerde : Serde where
  fromStr t := (sampleDocs.find? fun d => d.text = t).map Doc.value
  unquote t := unescape (t.drop 1).dropLast
  toText
    | .number token => token
    | _ => []

theorem nestedAB_reads : sampleSerde.Reads nestedAB := by
  refine ⟨rfl, rfl, ⟨rfl, rfl, ?_⟩⟩
  rfl

theorem repeatedA_reads : sampleSerde.Reads repeatedA := by
  refine ⟨rfl, rfl, ?_, rfl, ?_⟩ <;> rfl

theorem nestedDotted_reads : sampleSerde.Reads nestedDotted := by
  refine ⟨rfl, rfl, ⟨rfl, rfl, ?_⟩⟩
  rfl

theorem nestedAB_plain {members : List (Text × Json)} (h : nestedAB.value = .object members) :
    Plain members "a.b".toList := by
  obtain rfl := Json.object.inj h
  refine ⟨?_, fun _ parts hparts => ?_⟩
  · show _ ≤ 1
    decide
  · obtain rfl : ("a".toList, "b".toList) = parts := Option.some.inj hparts
    refine ⟨?_, fun v hv => ?_⟩
    · show _ ≤ 1
      decide
    · cases hv
      show _ ≤ 1
      decide

def bareEngine : Engine where
  cast _ v := v
  call _ _ _ := .null
  arith _ _ _ := .null
  negate v := v
  mixed _ _ := none
  ilike _ _ _ := false
  other _ _ := .null

def promotedA : PromotedColumns := [("a".toList, "a".toList)]

def repeatedRow : Row := fun name =>
  if name = "attributes".toList then .text (attributesText noGap repeatedA noGap)
  else if name = "a".toList then
    .ofText (sampleSerde.promotedCell (some (attributesText noGap repeatedA noGap)) "a".toList)
  else .null

def attrGetA : Expr := .scalarFunction "attr_get".toList [.column "attributes".toList, .literal (.text .utf8 "a".toList)]

/-- Escaped names are decoded as JSON has it. -/
def Serde.UnquotesNames (S : Serde) (d : Doc) : Prop :=
  ∀ name ∈ topNames d, '\\' ∈ name.raw → S.unquote name.text = unescape name.raw

/-- In the text of any object the scanner finds the value of the first member of the name as it is spelled, and nothing exactly when
no member has the name; a member whose name decodes to nothing is passed over. In any text at all it stays inside the text, finds a
part of it, and its loop has an end of its own: more turns make no difference. -/
theorem findTopLevelValue_exact (S : Serde) (key : Text) :
    (∀ (before after : Gap) (d : Doc) (members : List (Option Text × Doc)),
      d.members (fun name => unescape name.raw) = some members → S.UnquotesNames d →
      S.findTopLevelValueAt (attributesText before d after) key = .ok ((members.lookup (some key)).map Doc.text) ∧
        (S.findTopLevelValueAt (attributesText before d after) key = .ok none ↔ ∀ m ∈ members, m.1 ≠ some key)) ∧
      ∀ json, ∃ found, S.findTopLevelValueAt json key = .ok found ∧ (∀ v ∈ found, v <:+: json) ∧
        ∀ more start, S.findMemberFrom json key (json.length + more) start = S.findMemberFrom json key json.length start := by
  constructor
  · intro before after d members hmembers hnames
    have hdecodes : S.Decodes (fun name => unescape name.raw) (topNames d) := fun name hname =>
      Serde.keyMatches_eq unescape_of_plain (hnames name hname)
    have hfound := Serde.findTopLevelValue_members before after hmembers hdecodes key
    rw [Serde.findTopLevelValueAt_eq, attributesText, hfound]
    refine ⟨rfl, ?_⟩
    rw [Except.ok.injEq, Option.map_eq_none_iff, lookup_eq_none_iff]
    exact forall₂_congr fun m _ => by rw [bne_iff_ne, ne_comm]
  · intro json
    refine ⟨S.findTopLevelValue json key, Serde.findTopLevelValueAt_eq, fun v hv => ?_, fun more start => ?_⟩
    · obtain ⟨rest, hopen, hmember⟩ := Option.bind_eq_some_iff.mp hv
      have hrest : rest <:+ json := (suffix_cons _ _).trans (expect_eq_some hopen ▸ skipWs_suffix json)
      exact (Serde.findMember_infix hmember).trans hrest.isInfix
    · rw [Serde.findMemberFrom_eq, Serde.findMemberFrom_eq, Serde.findMember_fuel _ _ (drop_suffix start json).length_le]

/-- `{"\\ud800":1,"a":2}`: the first name is half of a surrogate pair. -/
def loneSurrogate : Doc :=
  .object (.more noGap ⟨"\\ud800".toList, [], by decide, by decide⟩ noGap noGap (.number ⟨['1'], by decide⟩) noGap
    (.one noGap (.plain ['a'] (by decide)) noGap noGap (.number ⟨['2'], by decide⟩) noGap))

/-- The scanner passes over a name that decodes to nothing. -/
theorem member_found_after_lone_surrogate :
    sampleSerde.findTopLevelValueAt (attributesText noGap loneSurrogate noGap) ['a'] = .ok (some ['2']) := by
  refine (((findTopLevelValue_exact sampleSerde ['a']).1 noGap noGap loneSurrogate _ rfl fun name hname => ?_).1).trans rfl
  rcases mem_cons.mp hname with rfl | hname
  · exact fun _ => rfl
  · rw [mem_singleton.mp hname]
    exact fun hescaped => absurd hescaped (by decide)

end LogLake
