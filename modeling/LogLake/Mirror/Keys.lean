import LogLake.Text

/-!
# Mirror keys

A segment of a tenant's events, or of one of a tenant's indexes, is stored in the mirror under a key
that spells its route: the mirror's prefix, the tenant, the index when it is not the events lane,
and the file name.
-/

namespace LogLake.Mirror

/-! ## Names -/

def reservedWalLayoutDirs : List Text :=
  ["active".toList, "sealed".toList, "processing".toList, "committed".toList, "consumers".toList]

def maxTenantIdLen : Nat := 128

def eqIgnoreAsciiCase (s t : Text) : Bool := toAsciiLowercase s == toAsciiLowercase t

def sanitizeTenant (raw : Text) : Option Text :=
  let t := trim raw
  if t.isEmpty || (asBytes t).length > maxTenantIdLen || !t.all fun c => c.isAlphanum || c == '-' || c == '_' then none
  else if reservedWalLayoutDirs.any fun r => eqIgnoreAsciiCase r t then none
  else some t

/-- The ways `validate_index_id` refuses an id. -/
inductive IndexConfigError where
  | reservedIndexId (id : Text)
  | invalidIndexId (id : Text)
  | reservedWalLayoutDir (id : Text)
  deriving DecidableEq

def validateIndexId (indexId : Text) : Except IndexConfigError Unit :=
  if ['_'].isPrefixOf indexId then .error (.reservedIndexId indexId)
  else match indexId with
    | [] => .error (.invalidIndexId indexId)
    | first :: chars =>
      if (asBytes indexId).length > 128 || !first.isLower && !first.isDigit then .error (.invalidIndexId indexId)
      else if chars.any fun c => !c.isLower && !c.isDigit && c != '_' && c != '-' then .error (.invalidIndexId indexId)
      else if reservedWalLayoutDirs.contains indexId then .error (.reservedWalLayoutDir indexId)
      else .ok ()

def eventsIndexId : Text := "events".toList

/-- The names a writer is opened for: a tenant id some request may carry, and an index id or the events lane. -/
def Accepted (tenant index : Text) : Prop :=
  (∃ raw, sanitizeTenant raw = some tenant) ∧ (validateIndexId index = .ok () ∨ index = eventsIndexId)

/-! ## Keys -/

variable (t : Text)

def trimStartSlashes : Text := t.dropWhile (· == '/')

def trimSlashes : Text := ((trimStartSlashes t).reverse.dropWhile (· == '/')).reverse

def splitSlashes : List Text := t.splitOn '/'

/-- The subdirectory of the mirror a writer for a tenant and an index is given. -/
def mirrorSubdir (tenant index : Text) : Text :=
  if index == eventsIndexId then tenant else tenant ++ '/' :: index

def joinSubdir (subdir : Option Text) (filename : Text) : Text :=
  match subdir with
  | some sub => if !sub.isEmpty then sub ++ '/' :: filename else filename
  | none => filename

/-- The `mirror_key_suffix` of a sealed segment; `set_mirror_subdir` trims the subdirectory it is given. -/
def mirrorKeySuffix (tenant index stem : Text) : Text :=
  joinSubdir (some (trimSlashes (mirrorSubdir tenant index))) (stem ++ ".arrow".toList)

def mirrorKey (mirrorPrefix suffix : Text) : Text :=
  let mirrorPrefix := trimSlashes mirrorPrefix
  if mirrorPrefix.isEmpty then trimStartSlashes suffix else mirrorPrefix ++ '/' :: trimStartSlashes suffix

/-- The suffix in `active_partial_key`. -/
def activePartialSuffix (sealedSuffix : Text) : Option Text :=
  (stripSuffix ".arrow".toList sealedSuffix).map fun stem => "_active/".toList ++ (stem ++ ".arrow.partial".toList)

def activePartialKey (mirrorPrefix sealedSuffix : Text) : Option Text :=
  (activePartialSuffix sealedSuffix).map (mirrorKey mirrorPrefix)

variable (mirrorPrefix tenant index stem : Text)

/-- The sealed key: where the uploader stores a segment. -/
def sealedKey : Text := mirrorKey mirrorPrefix (mirrorKeySuffix tenant index stem)

/-- The active key: where `active_mirror_loop` stores the snapshot of an open segment, by its file name. -/
def activeKey : Option Text :=
  let filename := stem ++ ".arrow.partial".toList
  (stripSuffix ".partial".toList filename).bind fun sealedName =>
    activePartialKey (trimSlashes mirrorPrefix) (joinSubdir (some (trimSlashes (mirrorSubdir tenant index))) sealedName)

/-! ## Readers -/

/-- The tenant and the index id two of the readers take from the parts of a key. -/
def routeOfParts : List Text → Text × Text
  | [tenant, _] => (tenant, [])
  | [tenant, index, _] => (tenant, index)
  | _ => ("default".toList, [])

def parseMirrorKeySuffix (suffix : Text) : Text × Text := routeOfParts (splitSlashes (trimSlashes suffix))

structure MirrorSyncObject where
  path : Text
  id : Text
  tenant : Text
  indexId : Text
  url : Text
  bytes : Int64
  deriving DecidableEq

def mirrorSyncObject (path : Text) (contentLength : UInt64) (trimmedPrefix : Text) : Option MirrorSyncObject :=
  if containsText path "/_active/".toList || "_active/".toList.isPrefixOf path then none
  else
    let file := (splitSlashes path).getLastD path
    (stripSuffix ".arrow".toList file).map fun id =>
      let rel := trimStartSlashes ((stripPrefix trimmedPrefix path).getD path)
      { path, id
        tenant := (routeOfParts (splitSlashes rel)).1
        indexId := (routeOfParts (splitSlashes rel)).2
        url := trimmedPrefix ++ '/' :: rel
        bytes := contentLength.toInt64 }

/-- `RecoveryTarget`; paths are their components. -/
structure RecoveryTarget where
  tenant : Text
  index : Option Text
  rel : List Text
  discovery : Option (List Text)
  stem : Text
  isPartial : Bool
  deriving DecidableEq

def sealedDir : Text := "sealed".toList

/-- The tenant and the index of the directories of a key. -/
def recoveryRoute : List Text → Option (Text × Option Text)
  | [] => some ("default".toList, none)
  | [tenant] => some (tenant, none)
  | [tenant, index] => some (tenant, some index)
  | _ => none

/-- The target of the parts of a suffix, from its file name and its directories. -/
def targetOfParts (isPartial : Bool) (parts : List Text) : Option RecoveryTarget :=
  parts.getLast?.bind fun filename =>
    ((stripSuffix ".arrow.partial".toList filename).or (stripSuffix ".arrow".toList filename)).bind fun stem =>
      (recoveryRoute parts.dropLast).map fun (tenant, index) =>
        { tenant, index
          rel := tenant :: index.toList ++ [sealedDir, stem ++ ".arrow".toList]
          discovery := index.map fun _ => [tenant, sealedDir]
          stem, isPartial }

def recoveryTarget (suffix : Text) : Option RecoveryTarget :=
  let suffix := trimSlashes suffix
  if suffix.isEmpty then none
  else match stripPrefix "_active/".toList suffix with
    | some rest => targetOfParts true ((splitSlashes rest).filter fun part => !part.isEmpty)
    | none => targetOfParts false ((splitSlashes suffix).filter fun part => !part.isEmpty)

/-- The suffix `plan_recovery` reads off a listed path. -/
def recoverySuffix (mirrorPrefix path : Text) : Option Text :=
  let mirrorPrefix := trimSlashes mirrorPrefix
  stripPrefix (if mirrorPrefix.isEmpty then [] else mirrorPrefix ++ ['/']) path

/-- What recovery makes of a listed path. -/
def recoverPath (mirrorPrefix path : Text) : Option RecoveryTarget := (recoverySuffix mirrorPrefix path).bind recoveryTarget

/-! ## Routes -/

/-- The first component of the keys of open segments. -/
def activeDir : Text := "_active".toList

def prefixParts (mirrorPrefix : Text) : List Text :=
  if (trimSlashes mirrorPrefix).isEmpty then [] else splitSlashes (trimSlashes mirrorPrefix)

/-- The index of a lane: none for the events. -/
def laneIndex (index : Text) : Option Text := if index == eventsIndexId then none else some index

/-- The index id of a lane as the ledger spells it. -/
def laneIndexId (index : Text) : Text := (laneIndex index).getD []

/-- The route a listed object is registered under, with its segment id. -/
def MirrorSyncObject.route (object : MirrorSyncObject) : Text × Text × Text := (object.tenant, object.indexId, object.id)

/-- The route an object is restored to, with its segment and whether it counts as partial. -/
def RecoveryTarget.route (target : RecoveryTarget) : Text × Option Text × Text × Bool :=
  (target.tenant, target.index, target.stem, target.isPartial)

/-- The sealed key of a segment and the key of its snapshots are read back as its tenant and its index. -/
structure ReadsBack (mirrorPrefix tenant index stem : Text) : Prop where
  parsed : parseMirrorKeySuffix (mirrorKeySuffix tenant index stem) = (tenant, laneIndexId index)
  synced : ∀ bytes, (mirrorSyncObject (sealedKey mirrorPrefix tenant index stem) bytes (trimSlashes mirrorPrefix)).map
    MirrorSyncObject.route = some (tenant, laneIndexId index, stem)
  recovered : (recoverPath mirrorPrefix (sealedKey mirrorPrefix tenant index stem)).map RecoveryTarget.route =
    some (tenant, laneIndex index, stem, false)
  activeNotSynced : ∃ key, activeKey mirrorPrefix tenant index stem = some key ∧
    ∀ bytes, mirrorSyncObject key bytes (trimSlashes mirrorPrefix) = none
  activeRecovered : ((activeKey mirrorPrefix tenant index stem).bind (recoverPath mirrorPrefix)).map RecoveryTarget.route =
    some (tenant, laneIndex index, stem, true)

/-- The pairs of a tenant and an index id that some reader takes from the keys of a segment. -/
def routes (bytes : UInt64) : List (Text × Text) :=
  let recovered (key : Text) := (recoverPath mirrorPrefix key).map fun target => (target.tenant, target.index.getD [])
  parseMirrorKeySuffix (mirrorKeySuffix tenant index stem) ::
    (((mirrorSyncObject (sealedKey mirrorPrefix tenant index stem) bytes (trimSlashes mirrorPrefix)).map fun object =>
      (object.tenant, object.indexId)).toList ++
    (recovered (sealedKey mirrorPrefix tenant index stem)).toList ++
    ((activeKey mirrorPrefix tenant index stem).bind recovered).toList)

end LogLake.Mirror
