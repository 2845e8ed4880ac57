import Mathlib

/-!
# The table-metadata cache

A process keeps the metadata of a table for a while, so that queries need not load it from the
catalog.
-/

namespace LogLake.TableCache

/-- Table metadata: the generation of the catalog, and what the cache compares of it. -/
structure Table where
  generation : Nat
  uuid : Nat
  snapshotId : Option Int
  schemaId : Int
  snapshotCount : Nat
  deriving DecidableEq

def oneSnapshot : Table := ⟨0, 1, some 10, 0, 1⟩

/-- `CachedTableEntry`; the provider is known by the table it was built from. -/
structure CachedTableEntry where
  snapshotId : Option Int
  schemaId : Int
  refreshedAt : Nat
  table : Table
  provider : Table
  snapshotCount : Nat
  deriving DecidableEq

def refreshAttempts : Nat := 3

def staleCeilingMult : Nat := 12

def entryOf (table : Table) (now : Nat) : CachedTableEntry :=
  ⟨table.snapshotId, table.schemaId, now, table, table, table.snapshotCount⟩

/-- The entry is of the table loaded: same incarnation, snapshot, schema and number of snapshots. -/
def SameGeneration (existing : CachedTableEntry) (table : Table) : Prop :=
  existing.table.uuid = table.uuid ∧ existing.snapshotId = table.snapshotId ∧ existing.schemaId = table.schemaId ∧
    existing.snapshotCount = table.snapshotCount

instance decidableSameGeneration (existing : CachedTableEntry) (table : Table) :
    Decidable (SameGeneration existing table) := inferInstanceAs (Decidable (_ ∧ _))

/-- Where a run of `refresh_table_cache_entry` stands; a call that found an entry has returned it without a reload. -/
inductive Phase where
  | waiting (attempt : Nat)
  | started (attempt epoch : Nat)
  | loaded (attempt epoch : Nat) (table : Table)
  | building (attempt epoch : Nat) (table : Table)
  | built (attempt epoch : Nat) (entry : CachedTableEntry)
  /-- The entry returned, and the table that the call last loaded itself. -/
  | returned (entry : CachedTableEntry) (own : Option Table)
  | failed
  deriving DecidableEq

/-- The epoch a reload goes by and the table it has loaded, until it returns. -/
def Phase.held? : Phase → Option (Nat × Table)
  | .loaded _ epoch table => some (epoch, table)
  | .building _ epoch table => some (epoch, table)
  | .built _ epoch entry => some (epoch, entry.table)
  | _ => none

/-- What the write guard protects: the entry, absent when the table is not cached, and the publication epoch. -/
structure Cache where
  entry : Option CachedTableEntry
  epoch : Nat

namespace Cache

variable (c : Cache)

/-- The first section under the write guard: renew the entry, serve the one that won, load again, or go on to build. -/
def check (now attempt epoch : Nat) (table : Table) : Cache × Phase :=
  match c.entry with
  | some existing =>
    if c.epoch = epoch then
      if SameGeneration existing table then
        ({ c with entry := some { existing with refreshedAt := now, table } },
          .returned { existing with refreshedAt := now, table } (some table))
      else (c, .building attempt epoch table)
    else (c, .returned existing (some table))
  | none =>
    if c.epoch ≠ epoch ∧ attempt < refreshAttempts then (c, .waiting (attempt + 1))
    else (c, .building attempt epoch table)

/-- The second section: publish the entry built, or serve the one that won, load again, or return it unpublished. -/
def publish (attempt epoch : Nat) (entry : CachedTableEntry) : Cache × Phase :=
  if c.epoch = epoch then (⟨some entry, c.epoch + 1⟩, .returned entry (some entry.table))
  else
    match c.entry with
    | some existing => (c, .returned existing (some entry.table))
    | none =>
      if attempt < refreshAttempts then (c, .waiting (attempt + 1)) else (c, .returned entry (some entry.table))

def invalidate : Cache := ⟨none, c.epoch + 1⟩

end Cache

/-- A call of `cached_table_entry`, a background refresh or a direct reload, with the generation that the last invalidation
before it had seen. -/
structure Call where
  background : Bool
  floor : Nat
  phase : Phase
  deriving DecidableEq

/-- The catalog's current metadata, the cache, whether a background refresh is running, the clock, the generation of the
catalog at the last invalidation, and the calls. -/
structure State where
  catalog : Table
  cache : Cache
  refreshing : Bool
  clock : Nat
  invalidated : Nat
  calls : List Call

def State.start (catalog : Table) : State := ⟨catalog, ⟨none, 0⟩, false, 0, 0, []⟩

inductive ReloadAction where
  | begin | load | check | build | publish | fail
  deriving DecidableEq

variable (s : State)

def reloadStep : Phase → ReloadAction → Option (Cache × Phase)
  | .waiting attempt, .begin => some (s.cache, .started attempt s.cache.epoch)
  | .started attempt epoch, .load => some (s.cache, .loaded attempt epoch s.catalog)
  | .loaded attempt epoch table, .check => some (s.cache.check s.clock attempt epoch table)
  | .building attempt epoch table, .build => some (s.cache, .built attempt epoch (entryOf table s.clock))
  | .built attempt epoch entry, .publish => some (s.cache.publish attempt epoch entry)
  | .started _ _, .fail => some (s.cache, .failed)
  | .building _ _ _, .fail => some (s.cache, .failed)
  | _, _ => none

inductive Action where
  | commit (uuid : Nat) (snapshotId : Option Int) (schemaId : Int) (snapshotCount : Nat)
  | invalidate
  | tick (time : Nat)
  /-- A call of `cached_table_entry` starts. -/
  | call
  | refresh
  | reload (c : Nat) (a : ReloadAction)
  | release (c : Nat)
  deriving DecidableEq

/-- `cached_table_entry`, up to the reload: a fresh entry is returned; a stale one is returned and reloaded in the background;
past the ceiling, or without an entry, the call reloads. -/
def callEntry (ttl : Nat) (s : State) : State :=
  match s.cache.entry with
  | some entry =>
    if s.clock - entry.refreshedAt < ttl then
      { s with calls := s.calls ++ [⟨false, s.invalidated, .returned entry none⟩] }
    else if s.clock - entry.refreshedAt < ttl * staleCeilingMult then
      if s.refreshing then { s with calls := s.calls ++ [⟨false, s.invalidated, .returned entry none⟩] }
      else
        { s with
          refreshing := true
          calls := s.calls ++ [⟨false, s.invalidated, .returned entry none⟩, ⟨true, s.invalidated, .waiting 1⟩] }
    else { s with calls := s.calls ++ [⟨false, s.invalidated, .waiting 1⟩] }
  | none => { s with calls := s.calls ++ [⟨false, s.invalidated, .waiting 1⟩] }

def step (ttl : Nat) (s : State) : Action → Option State
  | .commit uuid snapshotId schemaId snapshotCount =>
    some { s with catalog := ⟨s.catalog.generation + 1, uuid, snapshotId, schemaId, snapshotCount⟩ }
  | .invalidate => some { s with cache := s.cache.invalidate, invalidated := s.catalog.generation }
  | .tick time => some { s with clock := s.clock + time }
  | .call => some (callEntry ttl s)
  | .refresh => some { s with calls := s.calls ++ [⟨false, s.invalidated, .waiting 1⟩] }
  | .reload c a =>
    (s.calls[c]?).bind fun call =>
      (reloadStep s call.phase a).map fun next =>
        { s with cache := next.1, calls := s.calls.set c { call with phase := next.2 } }
  | .release c =>
    (s.calls[c]?).bind fun call =>
      match call.background, call.phase with
      | true, .returned _ _ => some { s with refreshing := false }
      | true, .failed => some { s with refreshing := false }
      | _, _ => none

/-- The epoch a reload that has not loaded yet goes by has moved. -/
def Phase.Overtaken (epoch : Nat) : Phase → Prop
  | .started _ epoch' => epoch' ≠ epoch
  | _ => False

instance decidableOvertaken (epoch : Nat) (phase : Phase) : Decidable (phase.Overtaken epoch) := by
  cases phase <;> (dsimp only [Phase.Overtaken]; infer_instance)

/-- No commit lands between the catalog reads of two reloads that overlap: a reload loads the table only at the generation that
the reloads under way hold, and at that of the entry, if one was published after it read the epoch. -/
def LoadsTogether : Action → Prop
  | .reload c .load =>
    (∀ call ∈ s.calls, ∀ held ∈ call.phase.held?, held.2.generation = s.catalog.generation) ∧
      ∀ call ∈ s.calls[c]?, call.phase.Overtaken s.cache.epoch →
        ∀ entry ∈ s.cache.entry, entry.table.generation = s.catalog.generation
  | _ => True

instance decidableLoadsTogether (a : Action) : Decidable (LoadsTogether s a) := by
  unfold LoadsTogether
  split <;> infer_instance

end LogLake.TableCache
