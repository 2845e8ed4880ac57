import LogLake.Lemmas.AttrGet
import LogLake.Lemmas.Sql
import LogLake.Promote

/-! # Two lookups of one key -/

namespace LogLake

open List Engine
open Option (or_none bind_none none_or bind_eq_some_iff)

open JsonText AssocList

/-! ## Dotted keys -/

variable {key : Text}

theorem splitOnce_eq_none (h : splitOnce '.' key = none) : '.' ∉ key := by
  induction key with
  | nil => exact not_mem_nil
  | cons c key ih =>
    rw [splitOnce] at h
    split at h
    · cases h
    · rename_i hc
      rw [Option.map_eq_none_iff] at h
      intro hmem
      rcases mem_cons.mp hmem with heq | hmem
      · exact hc heq.symm
      · exact ih h hmem

theorem splitOnce_eq_some {parts : Text × Text} (h : splitOnce '.' key = some parts) :
    key = parts.1 ++ '.' :: parts.2 ∧ '.' ∉ parts.1 := by
  induction key generalizing parts with
  | nil => cases h
  | cons c key ih =>
    rw [splitOnce] at h
    split at h
    · rename_i hc
      rw [← Option.some.inj h, hc]
      exact ⟨rfl, not_mem_nil⟩
    · rename_i hc
      obtain ⟨inner, hinner, rfl⟩ := Option.map_eq_some_iff.mp h
      obtain ⟨heq, hnot⟩ := ih hinner
      refine ⟨by rw [heq]; rfl, fun hmem => ?_⟩
      rcases mem_cons.mp hmem with heq | hmem
      · exact hc heq.symm
      · exact hnot hmem

theorem splitOn_of_not_mem (h : '.' ∉ key) : key.splitOn '.' = [key] := by
  rw [splitOn_eq_splitOnP]
  refine splitOnP_eq_singleton fun c hc => ?_
  rw [beq_eq_false_iff_ne]
  rintro rfl
  exact h hc

theorem splitOn_append_dot {head : Text} (h : '.' ∉ head) (tail : Text) :
    (head ++ '.' :: tail).splitOn '.' = head :: tail.splitOn '.' := by
  rw [splitOn_eq_splitOnP, splitOn_eq_splitOnP]
  refine splitOnP_append_cons_of_forall_mem (fun c hc => ?_) '.' (by simp) tail
  rw [beq_eq_false_iff_ne]
  rintro rfl
  exact h hc

/-! ## Objects with one member of a name -/

def OneNamed (members : List (Text × Json)) (name : Text) : Prop := (members.filter fun m => m.1 == name).length ≤ 1

theorem lookup_filter (members : List (Text × Json)) (name : Text) :
    (members.filter fun m => m.1 == name).lookup name = members.lookup name := by
  induction members with
  | nil => rfl
  | cons m members ih =>
    by_cases h : m.1 = name
    · rw [filter_cons_of_pos (by simpa using h), lookup_cons, lookup_cons, h, beq_self_eq_true]
    · rw [filter_cons_of_neg (by simpa using h), ih, lookup_cons, beq_eq_false_iff_ne.mpr fun heq => h heq.symm]

variable {members : List (Text × Json)}

theorem lookup_eq_mapGet {name : Text} (h : OneNamed members name) : members.lookup name = mapGet members name := by
  unfold OneNamed at h
  rw [mapGet, ← lookup_filter members, ← lookup_filter members.reverse, filter_reverse]
  generalize members.filter (fun m => m.1 == name) = named at h
  match named, h with
  | [], _ => rfl
  | [_], _ => rfl
  | _ :: _ :: _, h => exact absurd h (by simp)

/-- A nested value through which a dotted key can be walked in one way only: each segment names at most one member, and no
member has a name with the dots in it. -/
def PlainBelow : List Text → Json → Prop
  | [seg], .object members => OneNamed members seg
  | seg :: rest, .object members =>
    members.lookup (List.intercalate ['.'] (seg :: rest)) = none ∧ OneNamed members seg ∧
      ∀ v, members.lookup seg = some v → PlainBelow rest v
  | _, _ => True

/-- An object in which a key leads one way: the key names at most one member; where it names none, its first segment names
at most one, and the value of that is plain for the other segments. -/
def Plain (members : List (Text × Json)) (key : Text) : Prop :=
  OneNamed members key ∧ (members.lookup key = none → ∀ parts, splitOnce '.' key = some parts →
    OneNamed members parts.1 ∧ ∀ v, members.lookup parts.1 = some v → PlainBelow (parts.2.splitOn '.') v)

theorem firstMember_eq_walkSegments {v : Json} (hkey : '.' ∉ key) (h : PlainBelow (key.splitOn '.') v) :
    firstMember v key = walkSegments v (key.splitOn '.') := by
  rw [splitOn_of_not_mem hkey] at h ⊢
  cases v with
  | object members =>
    rw [PlainBelow] at h
    simp only [firstMember, walkSegments, lookup_eq_mapGet h]
    cases mapGet members key <;> rfl
  | _ => rfl

theorem plainBelow_cons {seg rest : Text}
    (hsegments : key.splitOn '.' = seg :: rest.splitOn '.') (h : PlainBelow (key.splitOn '.') (.object members)) :
    members.lookup key = none ∧ OneNamed members seg ∧
      ∀ v, members.lookup seg = some v → PlainBelow (rest.splitOn '.') v := by
  have hliteral : List.intercalate ['.'] (seg :: rest.splitOn '.') = key := by
    rw [← hsegments]
    exact intercalate_splitOn '.'
  obtain ⟨next, others, hrest⟩ := exists_cons_of_ne_nil (splitOn_ne_nil '.' rest)
  rw [hsegments, hrest, PlainBelow, ← hrest, hliteral] at h
  · exact h
  · exact fun hnil => by cases hnil

theorem firstPath_eq_walkSegments (dots : Nat) : ∀ (v : Json) (key : Text), key.length ≤ dots →
    PlainBelow (key.splitOn '.') v → firstPath dots v key = walkSegments v (key.splitOn '.') := by
  induction dots with
  | zero =>
    intro v key hdots hplain
    obtain rfl : key = [] := eq_nil_of_length_eq_zero (Nat.le_zero.mp hdots)
    rw [firstPath, or_none]
    exact firstMember_eq_walkSegments not_mem_nil hplain
  | succ dots ih =>
    intro v key hdots hplain
    rw [firstPath]
    cases hsplit : splitOnce '.' key with
    | none =>
      simp only [bind_none, or_none]
      exact firstMember_eq_walkSegments (splitOnce_eq_none hsplit) hplain
    | some parts =>
      obtain ⟨hkey, hhead⟩ := splitOnce_eq_some hsplit
      have hsegments : key.splitOn '.' = parts.1 :: parts.2.splitOn '.' := by
        rw [hkey]
        exact splitOn_append_dot hhead parts.2
      cases v with
      | object members =>
        obtain ⟨hliteral, hone, hinner⟩ := plainBelow_cons hsegments hplain
        have hlength : parts.2.length ≤ dots := by
          rw [hkey, length_append, length_cons] at hdots
          omega
        simp only [firstMember, hliteral, none_or, Option.bind_some, hsegments, walkSegments, ← lookup_eq_mapGet hone]
        cases hlookup : members.lookup parts.1 with
        | none => rfl
        | some inner => exact ih inner parts.2 hlength (hinner inner hlookup)
      | _ =>
        rw [hsegments]
        rfl

theorem firstPath_eq_attrLookup (h : Plain members key) :
    firstPath key.length (.object members) key = attrLookup members key := by
  obtain ⟨hone, hdotted⟩ := h
  unfold attrLookup
  rw [firstPath.eq_def, ← lookup_eq_mapGet hone]
  simp only [firstMember]
  cases hlookup : members.lookup key with
  | some v => rfl
  | none =>
    rw [none_or, none_or]
    cases hsplit : splitOnce '.' key with
    | none => cases key.length <;> rfl
    | some parts =>
      obtain ⟨hone', hinner⟩ := hdotted hlookup parts hsplit
      have hkey := (splitOnce_eq_some hsplit).1
      obtain ⟨dots, hdots, hlength⟩ : ∃ dots, key.length = dots + 1 ∧ parts.2.length ≤ dots := by
        rw [hkey, length_append, length_cons]
        exact ⟨parts.1.length + parts.2.length, by omega, by omega⟩
      rw [hdots]
      simp only [Option.bind_some, ← lookup_eq_mapGet hone']
      cases hhead : members.lookup parts.1 with
      | none => rfl
      | some v => exact firstPath_eq_walkSegments dots v parts.2 hlength (hinner v hhead)

theorem lookups_of_not_mem (members : List (Text × Json)) (h : '.' ∉ key) :
    firstPath key.length (.object members) key = members.lookup key ∧ attrLookup members key = mapGet members key := by
  have hsplit : splitOnce '.' key = none := by
    cases hparts : splitOnce '.' key with
    | none => rfl
    | some parts =>
      refine absurd ?_ h
      rw [(splitOnce_eq_some hparts).1]
      exact mem_append_right _ mem_cons_self
  constructor
  · rw [firstPath.eq_def]
    simp only [hsplit, firstMember, bind_none]
    cases key.length <;> exact or_none
  · rw [attrLookup, hsplit, bind_none, or_none]

/-! ## Rows with promoted columns -/

def HoldsAttrGet (S : Serde) (promoted : PromotedColumns) (row : Row) : Prop :=
  ∀ key column, promoted.lookup key = some column → row column = S.attrGet [row "attributes".toList, .text key]

section

variable {S : Serde} {E : Engine} {promoted : PromotedColumns} {row : Row}

theorem eval_attrGet {e : Expr} {key : Text} (h : attrGetKey e = some key) :
    (E.withAttrGet S).eval row e = S.attrGet [row "attributes".toList, .text key] := by
  unfold attrGetKey at h
  split at h
  · rename_i name column key'
    rw [Option.ite_none_right_eq_some] at h
    obtain ⟨⟨rfl, rfl⟩, hkey⟩ := h
    cases hkey
    rw [eval, evalList_eq_map, map_cons, map_cons, map_nil, eval, eval]
    simp only [withAttrGet, if_true]
    rfl
  · cases h

theorem eval_litStr {e : Expr} {s : Text} (h : litStr e = some s) : (E.withAttrGet S).eval row e = .text s := by
  unfold litStr at h
  split at h
  · rw [eval, Value.ofScalar, Option.some.inj h]
  · cases h

theorem attrGet_shape (S : Serde) (args : List Value) : S.attrGet args = .null ∨ ∃ t, S.attrGet args = .text t := by
  unfold Serde.attrGet
  split
  · rename_i attributes key
    cases S.jsonAttrLookup attributes key with
    | none => exact Or.inl rfl
    | some t => exact Or.inr ⟨t, rfl⟩
  · exact Or.inl rfl

theorem attrGet_of_isEq {args : List Value} {s : Text}
    (h : E.compareOp Ordering.isEq (S.attrGet args) (.text s) = some true) : S.attrGet args = .text s := by
  rcases attrGet_shape S args with hnull | ⟨t, ht⟩
  · rw [hnull] at h
    cases h
  · rw [ht] at h ⊢
    have hcmp : (cmp t s).isEq = true := Option.some.inj h
    rw [Comparison.isEq_cmp.mp hcmp]

theorem attrGet_of_isEq_right {args : List Value} {s : Text}
    (h : E.compareOp Ordering.isEq (.text s) (S.attrGet args) = some true) : S.attrGet args = .text s := by
  rcases attrGet_shape S args with hnull | ⟨t, ht⟩
  · rw [hnull] at h
    cases h
  · rw [ht] at h ⊢
    have hcmp : (cmp s t).isEq = true := Option.some.inj h
    rw [Comparison.isEq_cmp.mp hcmp]

/-! ## Hints -/

theorem isTrue_eq {l r : Expr} (h : (E.withAttrGet S).IsTrue row (.binary l .eq r)) :
    (E.withAttrGet S).compareOp Ordering.isEq ((E.withAttrGet S).eval row l) ((E.withAttrGet S).eval row r) = some true := by
  unfold Engine.IsTrue at h
  rw [eval] at h
  exact (Value.truth_ofTruth _).symm.trans h

section

variable (hrow : HoldsAttrGet S promoted row)
include hrow

theorem admits_equalitySpec {l r : Expr} (h : (E.withAttrGet S).IsTrue row (.binary l .eq r)) {spec : PromotedPruneSpec}
    (hspec : equalitySpec promoted l r = some spec) : spec.Admits row := by
  have heq := isTrue_eq h
  obtain ⟨⟨key, other⟩, hside, hrest⟩ := bind_eq_some_iff.mp hspec
  obtain ⟨column, hcolumn, hrest⟩ := bind_eq_some_iff.mp hrest
  obtain ⟨value, hvalue, rfl⟩ := Option.map_eq_some_iff.mp hrest
  refine ⟨value, mem_singleton_self value, (hrow key column hcolumn).trans ?_⟩
  dsimp only at hvalue
  split at hside
  · rename_i key' hl _
    cases hside
    rw [eval_attrGet hl, eval_litStr hvalue] at heq
    exact attrGet_of_isEq heq
  · rename_i key' _ hr
    cases hside
    rw [eval_attrGet hr, eval_litStr hvalue] at heq
    exact attrGet_of_isEq_right heq
  · cases hside

theorem admits_inListSpec {e : Expr} {list : List Expr}
    (h : (E.withAttrGet S).IsTrue row (.inList e list false)) {spec : PromotedPruneSpec}
    (hspec : inListSpec promoted e list = some spec) : spec.Admits row := by
  obtain ⟨key, hkey, hrest⟩ := bind_eq_some_iff.mp hspec
  obtain ⟨column, hcolumn, hrest⟩ := bind_eq_some_iff.mp hrest
  obtain ⟨values, hvalues, hrest⟩ := bind_eq_some_iff.mp hrest
  rw [Option.ite_none_left_eq_some] at hrest
  obtain rfl := Option.some.inj hrest.2
  unfold Engine.IsTrue at h
  rw [eval, Value.truth_ofTruth, negateIf, if_neg Bool.false_ne_true, inList, Kleene.any_eq_true,
    evalList_eq_map, map_map] at h
  obtain ⟨item, hitem, heq⟩ := mem_map.mp h
  obtain ⟨value, hvalue, hlit⟩ := exists_right_of_forall₂ (forall₂_of_mapM hvalues) hitem
  refine ⟨value, hvalue, (hrow key column hcolumn).trans ?_⟩
  rw [Function.comp, eval_attrGet hkey, eval_litStr hlit] at heq
  exact attrGet_of_isEq heq

theorem admits_promotedSpecs (filter : Expr)
    (h : (E.withAttrGet S).IsTrue row filter) : ∀ spec ∈ promotedSpecs promoted filter, spec.Admits row := by
  fun_induction promotedSpecs promoted filter with
  | case1 l r ihl ihr =>
    obtain ⟨hl, hr⟩ := isTrue_and.mp h
    intro spec hspec
    rcases mem_append.mp hspec with hspec | hspec
    · exact ihl hl spec hspec
    · exact ihr hr spec hspec
  | case2 l r => exact fun spec hspec => admits_equalitySpec hrow h (Option.mem_toList.mp hspec)
  | case3 e list => exact fun spec hspec => admits_inListSpec hrow h (Option.mem_toList.mp hspec)
  | case4 => exact fun spec hspec => absurd hspec not_mem_nil

theorem admits_extractPromotedPrune {filters : List Expr} (h : ∀ filter ∈ filters, (E.withAttrGet S).IsTrue row filter) :
    ∀ spec ∈ extractPromotedPrune filters promoted, spec.Admits row := by
  intro spec hspec
  unfold extractPromotedPrune at hspec
  split at hspec
  · cases hspec
  · obtain ⟨filter, hfilter, hmem⟩ := mem_flatMap.mp hspec
    exact admits_promotedSpecs hrow filter (h filter hfilter) spec hmem

end

/-! ## The rewrite -/

/-- Functions that look at the values of their arguments only. -/
def ValuesOnly (E : Engine) : Prop := ∀ name args args' values, E.call name args values = E.call name args' values

theorem call_withAttrGet (hE : ValuesOnly E) (name : Text) (args args' : List Expr) (values : List Value) :
    (E.withAttrGet S).call name args values = (E.withAttrGet S).call name args' values := by
  simp only [withAttrGet]
  rw [hE name args args' values]

mutual

theorem eval_rewriteAttrGet (hE : ValuesOnly E) (hrow : HoldsAttrGet S promoted row) :
    ∀ e : Expr, (E.withAttrGet S).eval row (rewriteAttrGet promoted e) = (E.withAttrGet S).eval row e
  | .column _ | .literal _ | .other _ => by rw [rewriteAttrGet]
  | .binary l _ r => by
    rw [rewriteAttrGet, eval, eval, eval_rewriteAttrGet hE hrow l, eval_rewriteAttrGet hE hrow r]
  | .alias e _ | .not e | .negative e | .isNull e | .isNotNull e | .cast e _ => by
    rw [rewriteAttrGet, eval, eval, eval_rewriteAttrGet hE hrow e]
  | .between e _ low high => by
    rw [rewriteAttrGet, eval, eval, eval_rewriteAttrGet hE hrow e, eval_rewriteAttrGet hE hrow low,
      eval_rewriteAttrGet hE hrow high]
  | .inList e list _ => by
    rw [rewriteAttrGet, eval, eval, eval_rewriteAttrGet hE hrow e, evalList_rewriteAttrGets hE hrow list]
  | .like _ e pattern _ _ => by
    rw [rewriteAttrGet, eval, eval, eval_rewriteAttrGet hE hrow e, eval_rewriteAttrGet hE hrow pattern]
  | .scalarFunction name args => by
    rw [rewriteAttrGet]
    split
    · rename_i column hcolumn
      obtain ⟨key, hkey, hlookup⟩ := bind_eq_some_iff.mp hcolumn
      rw [eval_attrGet hkey, eval]
      exact hrow key column hlookup
    · rw [eval, eval, evalList_rewriteAttrGets hE hrow args, call_withAttrGet hE]

theorem evalList_rewriteAttrGets (hE : ValuesOnly E) (hrow : HoldsAttrGet S promoted row) :
    ∀ es : List Expr, (E.withAttrGet S).evalList row (rewriteAttrGets promoted es) = (E.withAttrGet S).evalList row es
  | [] => by rw [rewriteAttrGets]
  | e :: es => by
    rw [rewriteAttrGets, evalList, evalList, eval_rewriteAttrGet hE hrow e, evalList_rewriteAttrGets hE hrow es]

end

end

end LogLake
