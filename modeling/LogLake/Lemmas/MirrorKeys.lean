import LogLake.Mirror.Keys

/-! # Mirror keys as parts -/

namespace LogLake.Mirror

open List Option

/-! ## Parts -/

/-- A part of a key: not empty, without a slash. -/
structure Part (t : Text) : Prop where
  ne_nil : t ≠ []
  no_slash : '/' ∉ t

def joinSlashes (parts : List Text) : Text := ['/'].intercalate parts

theorem joinSlashes_singleton (part : Text) : joinSlashes [part] = part := intercalate_singleton

theorem joinSlashes_cons_cons (part next : Text) (parts : List Text) :
    joinSlashes (part :: next :: parts) = part ++ '/' :: joinSlashes (next :: parts) := by
  simp [joinSlashes, intercalate_cons_cons]

variable {parts : List Text}

theorem splitSlashes_joinSlashes (hne : parts ≠ []) (h : ∀ part ∈ parts, '/' ∉ part) :
    splitSlashes (joinSlashes parts) = parts := splitOn_intercalate '/' h hne

theorem joinSlashes_append {before after : List Text} (hbefore : before ≠ []) (hafter : after ≠ []) :
    joinSlashes (before ++ after) = joinSlashes before ++ '/' :: joinSlashes after := by
  induction before with
  | nil => exact absurd rfl hbefore
  | cons part before ih =>
    cases before with
    | nil =>
      obtain ⟨next, after, rfl⟩ := exists_cons_of_ne_nil hafter
      rw [singleton_append, joinSlashes_cons_cons, joinSlashes_singleton]
    | cons next before =>
      have ih := ih (cons_ne_nil _ _)
      rw [cons_append] at ih
      rw [cons_append, cons_append, joinSlashes_cons_cons, ih, joinSlashes_cons_cons]
      simp

theorem joinSlashes_cons (part : Text) (hne : parts ≠ []) :
    joinSlashes (part :: parts) = part ++ '/' :: joinSlashes parts := by
  obtain ⟨next, rest, rfl⟩ := exists_cons_of_ne_nil hne
  exact joinSlashes_cons_cons part next rest

theorem splitSlashes_ne_nil (t : Text) : splitSlashes t ≠ [] := splitOn_ne_nil '/' t

variable {t : Text}

theorem trimStartSlashes_eq_self {c : Char} (h : c ≠ '/') : trimStartSlashes (c :: t) = c :: t :=
  dropWhile_cons_of_neg (by simpa using h)

theorem trimSlashes_eq_self (hhead : ∀ c ∈ t.head?, c ≠ '/') (hlast : ∀ c ∈ t.getLast?, c ≠ '/') : trimSlashes t = t := by
  have hstart : trimStartSlashes t = t := by
    cases t with
    | nil => rfl
    | cons c t => exact trimStartSlashes_eq_self (hhead c rfl)
  unfold trimSlashes
  rw [hstart]
  have hback : t.reverse.dropWhile (· == '/') = t.reverse := by
    cases hrev : t.reverse with
    | nil => rfl
    | cons c r =>
      apply dropWhile_cons_of_neg
      have hc : t.getLast? = some c := by rw [← List.head?_reverse, hrev]; rfl
      simpa using hlast c hc
  rw [hback, reverse_reverse]

variable {part : Text}

theorem head_joinSlashes (hpart : part ≠ []) (parts : List Text) : (joinSlashes (part :: parts)).head? = part.head? := by
  cases parts with
  | nil => rw [joinSlashes_singleton]
  | cons next parts =>
    rw [joinSlashes_cons_cons, List.head?_append_of_ne_nil _ hpart]

theorem joinSlashes_ne_nil (hpart : Part part) (parts : List Text) : joinSlashes (part :: parts) ≠ [] := by
  intro hnil
  have hhead := head_joinSlashes hpart.ne_nil parts
  rw [hnil] at hhead
  exact hpart.ne_nil (List.head?_eq_none_iff.mp hhead.symm)

theorem getLast_joinSlashes (hpart : part ≠ []) : (joinSlashes (parts ++ [part])).getLast? = part.getLast? := by
  rcases eq_or_ne parts [] with rfl | hne
  · rw [nil_append, joinSlashes_singleton]
  · rw [joinSlashes_append hne (cons_ne_nil _ _), joinSlashes_singleton,
      List.getLast?_append_of_ne_nil _ (cons_ne_nil _ _), List.getLast?_cons_of_ne_nil hpart]

theorem Part.head_ne (h : Part t) : ∀ c ∈ t.head?, c ≠ '/' := by
  rintro c hc rfl
  exact h.no_slash (mem_of_mem_head? hc)

theorem Part.getLast_ne (h : Part t) : ∀ c ∈ t.getLast?, c ≠ '/' := by
  rintro c hc rfl
  exact h.no_slash (mem_of_mem_getLast? hc)

theorem trimSlashes_joinSlashes (h : ∀ part ∈ parts, Part part) : trimSlashes (joinSlashes parts) = joinSlashes parts := by
  rcases eq_nil_or_concat' parts with rfl | ⟨before, last, rfl⟩
  · rfl
  · have hlast : Part last := h last (by simp)
    apply trimSlashes_eq_self
    · cases hparts : before ++ [last] with
      | nil => simp at hparts
      | cons first rest =>
        have hfirst : Part first := h first (by rw [hparts]; exact mem_cons_self)
        rw [head_joinSlashes hfirst.ne_nil]
        exact hfirst.head_ne
    · rw [getLast_joinSlashes hlast.ne_nil]
      exact hlast.getLast_ne

theorem trimStartSlashes_joinSlashes (h : ∀ part ∈ parts, Part part) :
    trimStartSlashes (joinSlashes parts) = joinSlashes parts := by
  cases parts with
  | nil => rfl
  | cons first rest =>
    have hfirst := h first mem_cons_self
    have hhead := head_joinSlashes hfirst.ne_nil rest
    cases hjoin : joinSlashes (first :: rest) with
    | nil => rfl
    | cons c t =>
      rw [hjoin] at hhead
      exact trimStartSlashes_eq_self (hfirst.head_ne c (by rw [← hhead]; rfl))

/-! ## The names of a segment -/

/-- The parts of a sealed suffix before the file name. -/
def laneDirs (tenant index : Text) : List Text := if index == eventsIndexId then [tenant] else [tenant, index]

theorem part_of_sanitizeTenant {raw tenant : Text} (h : sanitizeTenant raw = some tenant) : Part tenant := by
  unfold sanitizeTenant at h
  simp only [ite_none_left_eq_some, some.injEq] at h
  obtain ⟨hchars, -, rfl⟩ := h
  simp only [Bool.or_eq_true, Bool.not_eq_true', not_or, Bool.not_eq_false] at hchars
  obtain ⟨⟨hne, -⟩, hall⟩ := hchars
  refine ⟨fun hnil => hne (by rw [hnil]; rfl), fun hslash => ?_⟩
  have := all_eq_true.mp hall '/' hslash
  revert this
  decide

theorem validateIndexId_ok {index : Text} (h : validateIndexId index = .ok ()) : Part index ∧ ¬ ['_'] <+: index := by
  unfold validateIndexId at h
  split at h
  · cases h
  · next hunderscore =>
    rw [ isPrefixOf_iff_prefix] at hunderscore
    refine ⟨?_, hunderscore⟩
    split at h
    · cases h
    · next first chars =>
      split at h
      · cases h
      · next hfirst =>
        split at h
        · cases h
        · next hchars =>
          refine ⟨cons_ne_nil _ _, fun hslash => ?_⟩
          rcases mem_cons.mp hslash with rfl | hslash
          · exact hfirst (Bool.or_eq_true _ _ ▸ Or.inr (by decide))
          · exact hchars (any_eq_true.mpr ⟨'/', hslash, by decide⟩)

variable {tenant index : Text}

section

variable (h : Accepted tenant index)
include h

theorem Accepted.part_tenant : Part tenant := by
  obtain ⟨⟨raw, hraw⟩, -⟩ := h
  exact part_of_sanitizeTenant hraw

theorem Accepted.part_index : Part index ∧ index ≠ activeDir := by
  rcases h.2 with hvalid | rfl
  · obtain ⟨hpart, hunderscore⟩ := validateIndexId_ok hvalid
    refine ⟨hpart, ?_⟩
    rintro rfl
    exact hunderscore (by decide)
  · exact ⟨⟨by decide, by decide⟩, by decide⟩

theorem Accepted.part_laneDirs : ∀ part ∈ laneDirs tenant index, Part part := by
  unfold laneDirs
  split
  · simpa using h.part_tenant
  · simpa using ⟨h.part_tenant, h.part_index.1⟩

theorem Accepted.activeDir_mem_laneDirs : activeDir ∈ laneDirs tenant index ↔ tenant = activeDir := by
  have hindex := h.part_index.2
  unfold laneDirs
  split
  · simp [eq_comm]
  · simp [eq_comm, hindex]

end

theorem laneDirs_ne_nil (tenant index : Text) : laneDirs tenant index ≠ [] := by
  unfold laneDirs
  split <;> exact cons_ne_nil _ _

theorem mirrorSubdir_eq (tenant index : Text) : mirrorSubdir tenant index = joinSlashes (laneDirs tenant index) := by
  unfold mirrorSubdir laneDirs
  split
  · rw [joinSlashes_singleton]
  · rw [joinSlashes_cons_cons, joinSlashes_singleton]

theorem Accepted.joinSubdir_eq (h : Accepted tenant index) (filename : Text) :
    joinSubdir (some (trimSlashes (mirrorSubdir tenant index))) filename =
      joinSlashes (laneDirs tenant index ++ [filename]) := by
  have hne : joinSlashes (laneDirs tenant index) ≠ [] := by
    obtain ⟨first, rest, hdirs⟩ := exists_cons_of_ne_nil (laneDirs_ne_nil tenant index)
    rw [hdirs]
    exact joinSlashes_ne_nil (h.part_laneDirs first (by rw [hdirs]; exact mem_cons_self)) rest
  rw [mirrorSubdir_eq, trimSlashes_joinSlashes h.part_laneDirs,
    joinSlashes_append (laneDirs_ne_nil tenant index) (cons_ne_nil _ _), joinSlashes_singleton]
  simp [joinSubdir, hne]

variable {stem : Text}

theorem part_append (hstem : '/' ∉ stem) {suffix : Text} (hne : suffix ≠ []) (hsuffix : '/' ∉ suffix) :
    Part (stem ++ suffix) :=
  ⟨append_ne_nil_of_right_ne_nil stem hne, by simp [hstem, hsuffix]⟩

theorem part_sealedName (hstem : '/' ∉ stem) : Part (stem ++ ".arrow".toList) :=
  part_append hstem (by decide) (by decide)

theorem part_activeName (hstem : '/' ∉ stem) : Part (stem ++ ".arrow.partial".toList) :=
  part_append hstem (by decide) (by decide)

theorem part_activeDir : Part activeDir := ⟨by decide, by decide⟩

theorem activeDir_slash : "_active/".toList = activeDir ++ ['/'] := by decide

/-! ## Keys as parts -/

theorem no_slash_of_mem_prefixParts {mirrorPrefix : Text} (h : part ∈ prefixParts mirrorPrefix) : '/' ∉ part := by
  unfold prefixParts at h
  split at h
  · cases h
  · intro hslash
    have := not_sep_of_mem_splitOnP h '/' hslash
    simp at this

theorem head_dropSlashes {c : Char} (h : c ∈ (t.dropWhile (· == '/')).head?) : c ≠ '/' := by
  have hdrop := List.head?_dropWhile_not (· == '/') t
  rw [mem_def.mp h] at hdrop
  simpa using hdrop

theorem trimSlashes_trimSlashes (t : Text) : trimSlashes (trimSlashes t) = trimSlashes t := by
  apply trimSlashes_eq_self
  · intro c hc
    have hinitial : trimSlashes t <+: trimStartSlashes t := by
      unfold trimSlashes
      rw [← reverse_suffix, reverse_reverse]
      exact dropWhile_suffix _
    obtain ⟨rest, hrest⟩ := hinitial
    apply head_dropSlashes (t := t)
    change c ∈ (trimStartSlashes t).head?
    rw [← hrest, List.head?_append, mem_def.mp hc]
    rfl
  · intro c hc
    unfold trimSlashes at hc
    rw [List.getLast?_reverse] at hc
    exact head_dropSlashes hc

theorem mirrorKey_joinSlashes (mirrorPrefix : Text) (hne : parts ≠ []) (h : ∀ part ∈ parts, Part part) :
    mirrorKey mirrorPrefix (joinSlashes parts) = joinSlashes (prefixParts mirrorPrefix ++ parts) := by
  unfold mirrorKey prefixParts
  rw [trimStartSlashes_joinSlashes h]
  dsimp only
  split
  · rfl
  · rw [joinSlashes_append (splitSlashes_ne_nil _) hne]
    unfold joinSlashes splitSlashes
    rw [intercalate_splitOn]

theorem mirrorKey_trimSlashes (mirrorPrefix suffix : Text) :
    mirrorKey (trimSlashes mirrorPrefix) suffix = mirrorKey mirrorPrefix suffix := by
  unfold mirrorKey
  rw [trimSlashes_trimSlashes]

section Lane

variable (haccepted : Accepted tenant index) (hstem : '/' ∉ stem)

include haccepted hstem

theorem part_sealedParts : ∀ part ∈ laneDirs tenant index ++ [stem ++ ".arrow".toList], Part part := by
  intro part hpart
  rcases mem_append.mp hpart with hdir | hfile
  · exact haccepted.part_laneDirs part hdir
  · rw [mem_singleton.mp hfile]
    exact part_sealedName hstem

theorem part_activeParts : ∀ part ∈ activeDir :: laneDirs tenant index ++ [stem ++ ".arrow.partial".toList], Part part := by
  intro part hpart
  rcases mem_append.mp hpart with hdir | hfile
  · rcases mem_cons.mp hdir with rfl | hdir
    · exact part_activeDir
    · exact haccepted.part_laneDirs part hdir
  · rw [mem_singleton.mp hfile]
    exact part_activeName hstem

theorem sealedKey_eq (mirrorPrefix : Text) : sealedKey mirrorPrefix tenant index stem =
    joinSlashes (prefixParts mirrorPrefix ++ (laneDirs tenant index ++ [stem ++ ".arrow".toList])) := by
  unfold sealedKey mirrorKeySuffix
  rw [haccepted.joinSubdir_eq]
  exact mirrorKey_joinSlashes mirrorPrefix (by simp) (part_sealedParts haccepted hstem)

theorem activeKey_eq (mirrorPrefix : Text) : activeKey mirrorPrefix tenant index stem =
    some (joinSlashes (prefixParts mirrorPrefix ++ (activeDir :: laneDirs tenant index ++ [stem ++ ".arrow.partial".toList]))) := by
  have hname : stripSuffix ".partial".toList (stem ++ ".arrow.partial".toList) = some (stem ++ ".arrow".toList) := by
    rw [mem_stripSuffix, append_assoc]
    rfl
  have hdirs := laneDirs_ne_nil tenant index
  have hsplit : joinSlashes (laneDirs tenant index ++ [stem ++ ".arrow".toList]) =
      (joinSlashes (laneDirs tenant index) ++ '/' :: stem) ++ ".arrow".toList := by
    rw [joinSlashes_append hdirs (cons_ne_nil _ _), joinSlashes_singleton]
    simp
  have hjoined : "_active/".toList ++ ((joinSlashes (laneDirs tenant index) ++ '/' :: stem) ++ ".arrow.partial".toList) =
      joinSlashes (activeDir :: laneDirs tenant index ++ [stem ++ ".arrow.partial".toList]) := by
    rw [joinSlashes_append (cons_ne_nil _ _) (cons_ne_nil _ _), joinSlashes_singleton, joinSlashes_cons _ hdirs,
      activeDir_slash]
    simp only [append_assoc, cons_append, nil_append]
  unfold activeKey activePartialKey activePartialSuffix
  dsimp only
  rw [hname, bind_some, haccepted.joinSubdir_eq, hsplit, mem_stripSuffix.mpr rfl, map_some, map_some,
    hjoined, mirrorKey_trimSlashes, mirrorKey_joinSlashes mirrorPrefix (by simp) (part_activeParts haccepted hstem)]

end Lane

/-! ## The readers on keys -/

theorem activePath_iff (path : Text) : (containsText path "/_active/".toList || "_active/".toList.isPrefixOf path) = true ↔
      activeDir ∈ (splitSlashes path).dropLast := by
  unfold splitSlashes
  rw [Bool.or_eq_true, containsText_iff, isPrefixOf_iff_prefix,
    ← enclosed_infix_iff_mem_dropLast (c := activeDir) (by decide), infix_cons_iff, or_comm]
  have hcons : '/' :: (activeDir ++ ['/']) <+: '/' :: path ↔ "_active/".toList <+: path := prefix_cons_inj '/'
  rw [hcons]
  exact Iff.rfl

theorem routeOfParts_lane (tenant index filename : Text) :
    routeOfParts (laneDirs tenant index ++ [filename]) = (tenant, laneIndexId index) := by
  unfold laneDirs laneIndexId laneIndex
  split <;> rfl

theorem recoveryRoute_lane (tenant index : Text) : recoveryRoute (laneDirs tenant index) = some (tenant, laneIndex index) := by
  unfold laneDirs laneIndex
  split <;> rfl

theorem parseMirrorKeySuffix_lane (haccepted : Accepted tenant index) (hstem : '/' ∉ stem) :
    parseMirrorKeySuffix (mirrorKeySuffix tenant index stem) = (tenant, laneIndexId index) := by
  have hparts := part_sealedParts haccepted hstem
  unfold parseMirrorKeySuffix mirrorKeySuffix
  rw [haccepted.joinSubdir_eq, trimSlashes_joinSlashes hparts,
    splitSlashes_joinSlashes (by simp) fun part hpart => (hparts part hpart).no_slash, routeOfParts_lane]

variable (mirrorPrefix : Text)

theorem trimStartSlashes_stripPrefix (hne : parts ≠ []) (h : ∀ part ∈ parts, Part part) :
    trimStartSlashes ((stripPrefix (trimSlashes mirrorPrefix) (joinSlashes (prefixParts mirrorPrefix ++ parts))).getD
      (joinSlashes (prefixParts mirrorPrefix ++ parts))) = joinSlashes parts := by
  have htrim := trimStartSlashes_joinSlashes h
  rw [← mirrorKey_joinSlashes mirrorPrefix hne h]
  unfold mirrorKey
  rw [htrim]
  dsimp only
  split
  · next hempty =>
    have hstrip : stripPrefix [] (joinSlashes parts) = some (joinSlashes parts) := mem_stripPrefix.mpr rfl
    rw [isEmpty_iff.mp hempty, hstrip, getD_some, htrim]
  · rw [mem_stripPrefix.mpr rfl, getD_some]
    unfold trimStartSlashes at htrim ⊢
    rw [dropWhile_cons_of_pos (by rfl), htrim]

theorem recoverySuffix_joinSlashes (hne : parts ≠ []) (h : ∀ part ∈ parts, Part part) :
    recoverySuffix mirrorPrefix (joinSlashes (prefixParts mirrorPrefix ++ parts)) = some (joinSlashes parts) := by
  rw [← mirrorKey_joinSlashes mirrorPrefix hne h]
  unfold recoverySuffix mirrorKey
  rw [trimStartSlashes_joinSlashes h, mem_stripPrefix]
  dsimp only
  split
  · rfl
  · simp

theorem splitSlashes_key (hne : parts ≠ []) (h : ∀ part ∈ parts, Part part) :
    splitSlashes (joinSlashes (prefixParts mirrorPrefix ++ parts)) = prefixParts mirrorPrefix ++ parts := by
  apply splitSlashes_joinSlashes (append_ne_nil_of_right_ne_nil _ hne)
  intro part hpart
  rcases mem_append.mp hpart with hpart | hpart
  · exact no_slash_of_mem_prefixParts hpart
  · exact (h part hpart).no_slash

theorem mirrorSyncObject_sealedKey (haccepted : Accepted tenant index) (hstem : '/' ∉ stem)
    (mirrorPrefix : Text) (bytes : UInt64) :
    mirrorSyncObject (sealedKey mirrorPrefix tenant index stem) bytes (trimSlashes mirrorPrefix) =
      if activeDir ∉ prefixParts mirrorPrefix ∧ tenant ≠ activeDir then
        some { path := sealedKey mirrorPrefix tenant index stem
               id := stem
               tenant := tenant
               indexId := laneIndexId index
               url := trimSlashes mirrorPrefix ++ '/' :: mirrorKeySuffix tenant index stem
               bytes := bytes.toInt64 }
      else none := by
  have hparts := part_sealedParts haccepted hstem
  have hsplit := splitSlashes_key mirrorPrefix (by simp) hparts
  have hactive := activePath_iff (sealedKey mirrorPrefix tenant index stem)
  rw [sealedKey_eq haccepted hstem, hsplit, ← append_assoc, dropLast_concat, mem_append,
    haccepted.activeDir_mem_laneDirs, append_assoc] at hactive
  unfold mirrorSyncObject mirrorKeySuffix
  rw [sealedKey_eq haccepted hstem, haccepted.joinSubdir_eq]
  by_cases hdir : activeDir ∈ prefixParts mirrorPrefix ∨ tenant = activeDir
  · rw [if_pos (hactive.mpr hdir), if_neg (by tauto)]
  · have hname : stripSuffix ".arrow".toList (stem ++ ".arrow".toList) = some stem := mem_stripSuffix.mpr rfl
    rw [if_neg (fun h => hdir (hactive.mp h)), if_pos (by tauto)]
    dsimp only
    rw [hsplit, trimStartSlashes_stripPrefix mirrorPrefix (by simp) hparts,
      splitSlashes_joinSlashes (by simp) fun part hpart => (hparts part hpart).no_slash, routeOfParts_lane,
      ← append_assoc, getLastD_concat, hname, map_some]

theorem mirrorSyncObject_activeKey (haccepted : Accepted tenant index) (hstem : '/' ∉ stem)
    {mirrorPrefix key : Text} (hkey : activeKey mirrorPrefix tenant index stem = some key) (bytes : UInt64) :
    mirrorSyncObject key bytes (trimSlashes mirrorPrefix) = none := by
  rw [activeKey_eq haccepted hstem] at hkey
  cases hkey
  unfold mirrorSyncObject
  rw [if_pos]
  rw [activePath_iff, splitSlashes_key mirrorPrefix (by simp) (part_activeParts haccepted hstem), ← append_assoc,
    dropLast_concat]
  simp

theorem targetOfParts_lane (isPartial : Bool) (tenant index : Text) {filename stem : Text}
    (hstem : (stripSuffix ".arrow.partial".toList filename).or (stripSuffix ".arrow".toList filename) = some stem) :
    (targetOfParts isPartial (laneDirs tenant index ++ [filename])).map RecoveryTarget.route =
      some (tenant, laneIndex index, stem, isPartial) := by
  unfold targetOfParts
  rw [List.getLast?_concat, bind_some, hstem, bind_some, dropLast_concat, recoveryRoute_lane]
  rfl

theorem filter_parts (h : ∀ part ∈ parts, Part part) : parts.filter (fun part => !part.isEmpty) = parts := by
  rw [filter_eq_self]
  intro part hpart
  have := (h part hpart).ne_nil
  simpa using this

theorem stripPrefix_active {tenant : Text} (htenant : '/' ∉ tenant) (hne : tenant ≠ activeDir) (rest : Text) :
    stripPrefix "_active/".toList (tenant ++ '/' :: rest) = none := by
  rw [eq_none_iff_forall_ne_some]
  intro body hbody
  have htext : tenant ++ '/' :: rest = activeDir ++ '/' :: body := by
    rw [mem_stripPrefix.mp hbody, activeDir_slash, append_assoc, singleton_append]
  have hpieces := congrArg (List.splitOn '/') htext
  rw [splitOn_append_cons_self, splitOn_append_cons_self, splitOn_eq_singleton htenant,
    splitOn_eq_singleton part_activeDir.no_slash] at hpieces
  exact hne (List.cons.inj hpieces).1

theorem not_isPartial_name (stem : Text) : stripSuffix ".arrow.partial".toList (stem ++ ".arrow".toList) = none := by
  rw [eq_none_iff_forall_ne_some]
  intro other hother
  have hlast := congrArg List.getLast? (mem_stripSuffix.mp hother)
  rw [List.getLast?_append_of_ne_nil _ (by decide), List.getLast?_append_of_ne_nil _ (by decide)] at hlast
  revert hlast
  decide

section Recovery

variable (haccepted : Accepted tenant index) (hstem : '/' ∉ stem)

include haccepted hstem

theorem recoverPath_sealedKey (hne : tenant ≠ activeDir) (mirrorPrefix : Text) :
    (recoverPath mirrorPrefix (sealedKey mirrorPrefix tenant index stem)).map RecoveryTarget.route =
      some (tenant, laneIndex index, stem, false) := by
  have hparts := part_sealedParts haccepted hstem
  have hstripped : stripPrefix "_active/".toList (joinSlashes (laneDirs tenant index ++ [stem ++ ".arrow".toList])) = none := by
    unfold laneDirs
    split <;> exact stripPrefix_active haccepted.part_tenant.no_slash hne _
  have hsome : joinSlashes (laneDirs tenant index ++ [stem ++ ".arrow".toList]) ≠ [] := by
    unfold laneDirs
    split <;> exact joinSlashes_ne_nil haccepted.part_tenant _
  unfold recoverPath
  rw [sealedKey_eq haccepted hstem, recoverySuffix_joinSlashes mirrorPrefix (by simp) hparts, bind_some]
  unfold recoveryTarget
  dsimp only
  rw [trimSlashes_joinSlashes hparts, if_neg (by simpa using hsome), hstripped]
  dsimp only
  rw [splitSlashes_joinSlashes (by simp) fun part hpart => (hparts part hpart).no_slash, filter_parts hparts]
  apply targetOfParts_lane
  rw [not_isPartial_name, mem_stripSuffix.mpr rfl]
  rfl

theorem recoverPath_activeKey (mirrorPrefix : Text) :
    ((activeKey mirrorPrefix tenant index stem).bind (recoverPath mirrorPrefix)).map RecoveryTarget.route =
      some (tenant, laneIndex index, stem, true) := by
  have hparts := part_activeParts haccepted hstem
  have hbody : ∀ part ∈ laneDirs tenant index ++ [stem ++ ".arrow.partial".toList], Part part :=
    fun part hpart => hparts part (mem_cons_of_mem _ hpart)
  have hstripped : stripPrefix "_active/".toList
      (joinSlashes (activeDir :: laneDirs tenant index ++ [stem ++ ".arrow.partial".toList])) =
        some (joinSlashes (laneDirs tenant index ++ [stem ++ ".arrow.partial".toList])) := by
    rw [mem_stripPrefix, cons_append, joinSlashes_cons _ (by simp), activeDir_slash, append_assoc, singleton_append]
  rw [activeKey_eq haccepted hstem, bind_some]
  unfold recoverPath
  rw [recoverySuffix_joinSlashes mirrorPrefix (by simp) hparts, bind_some]
  unfold recoveryTarget
  dsimp only
  rw [trimSlashes_joinSlashes hparts, if_neg (by simpa using joinSlashes_ne_nil part_activeDir _), hstripped]
  dsimp only
  rw [splitSlashes_joinSlashes (by simp) fun part hpart => (hbody part hpart).no_slash, filter_parts hbody]
  apply targetOfParts_lane
  rw [mem_stripSuffix.mpr rfl]
  rfl

end Recovery

end LogLake.Mirror
