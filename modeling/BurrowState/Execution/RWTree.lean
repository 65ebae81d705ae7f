import BurrowState.Execution.KeyFormat

/-!
# The versioned tree and the database

`storage.RWTree` and `storage.CacheDB` are not in the repository; the spec gives their contract (§4.2).  Writes go
to a working copy, `Save` seals it as the next version and returns its hash (or fails and seals nothing), `Load`
makes a sealed version readable, and reads see the last version saved or loaded.  A `CacheDB` reaches the database
only when it is committed.
-/

namespace BurrowState

/-- Modelled from the spec: a database, the backend outside the tree's space and the versions it sealed there. -/
structure DB where
  kv : KVStore
  versions : List (Int × Bytes × KVStore)

namespace DB

def empty : DB := ⟨.empty, []⟩

/-- The hash and contents of a sealed version. -/
def lookupVersion (db : DB) (version : Int) : Option (Bytes × KVStore) :=
  (db.versions.find? fun v => v.1 = version).map Prod.snd

@[simp] theorem lookupVersion_cons (db : DB) (v : Int × Bytes × KVStore) (version : Int) :
    ({ db with versions := v :: db.versions } : DB).lookupVersion version =
      if v.1 = version then some v.2 else db.lookupVersion version := by
  by_cases h : v.1 = version <;> simp [lookupVersion, List.find?_cons, h]

end DB

/-- Modelled from the spec: `storage.RWTree`, its working copy and the last version saved or loaded. -/
structure RWTree where
  working : KVStore
  readTree : KVStore
  readHash : Bytes
  version : Int

namespace RWTree

/-- Modelled from the spec: `NewRWTree`, empty at version 0. -/
def newRWTree : RWTree := ⟨.empty, .empty, [], 0⟩

/-- Modelled from the spec: `RWTree.Get` reads the last saved version. -/
def get (t : RWTree) (key : Bytes) : Option Bytes := t.readTree.get key

/-- Modelled from the spec: `RWTree.Set` writes the working copy. -/
def set (t : RWTree) (key value : Bytes) : RWTree := { t with working := t.working.set key value }

/-- Modelled from the spec: `RWTree.Delete` writes the working copy. -/
def delete (t : RWTree) (key : Bytes) : RWTree := { t with working := t.working.delete key }

/-- Modelled from the spec: `RWTree.Iterator` iterates the last saved version. -/
def iterator (t : RWTree) (start «end» : Option Bytes) : ListIterator := t.readTree.iterator start «end»

/-- The loop of `IterateRange`: `visit` on each entry, threading its state, until it asks to stop. -/
def visitEntries {σ : Type} (visit : σ → Bytes → Bytes → σ × Bool) : List (Bytes × Bytes) → σ → σ × Bool
  | [], acc => (acc, false)
  | e :: es, acc =>
    let r := visit acc e.1 e.2
    if r.2 then (r.1, true) else visitEntries visit es r.1

/-- Modelled from the spec: `RWTree.IterateRange` visits the last saved version in a range until `visit` stops. -/
def iterateRange {σ : Type} (t : RWTree) (start «end» : Option Bytes) (ascending : Bool)
    (visit : σ → Bytes → Bytes → σ × Bool) (init : σ) : σ × Bool :=
  let es := t.readTree.entries.filter fun e => KVStore.inRange start «end» e.1
  visitEntries visit (if ascending then es else es.reverse) init

/-- A `visit` that never stops runs over every entry. -/
theorem visitEntries_never_stops {σ : Type} (f : σ → Bytes → Bytes → σ) (es : List (Bytes × Bytes)) (init : σ) :
    visitEntries (fun acc k v => (f acc k v, false)) es init = (es.foldl (fun acc e => f acc e.1 e.2) init, false) := by
  induction es generalizing init with
  | nil => rfl
  | cons e es ih => exact ih _

/-- Modelled from the spec: `RWTree.Hash`, the hash of the last version saved or loaded. -/
def hash (t : RWTree) : Bytes := t.readHash

/-- Modelled from the spec: `RWTree.Save` seals the working copy as the next version, or fails with `saveError`. -/
def save (saveError : Int → KVStore → Option GoError) (treeHash : Int → KVStore → Bytes) (db : DB) (t : RWTree) :
    Except GoError (Bytes × Int × RWTree × DB) :=
  let version := t.version + 1
  match saveError version t.working with
  | some err => .error err
  | none =>
    let hash := treeHash version t.working
    .ok (hash, version, { t with readTree := t.working, readHash := hash, version := version },
      { db with versions := (version, hash, t.working) :: db.versions })

/-- Modelled from the spec: `RWTree.Load` makes a sealed version the working and readable contents. -/
def load (db : DB) (_t : RWTree) (version : Int) : Except GoError RWTree :=
  if version ≤ 0 then .error (.error "trying to load RWTree from non-positive version: version %d")
  else match db.lookupVersion version with
    | none => .error (.error "could not load current version of RWTree: version %d")
    | some (hash, contents) => .ok ⟨contents, contents, hash, version⟩

variable (t : RWTree) (k v : Bytes)

@[simp] theorem set_readTree : (t.set k v).readTree = t.readTree := rfl
@[simp] theorem set_version : (t.set k v).version = t.version := rfl
@[simp] theorem set_working : (t.set k v).working = t.working.set k v := rfl
@[simp] theorem delete_readTree : (t.delete k).readTree = t.readTree := rfl
@[simp] theorem delete_version : (t.delete k).version = t.version := rfl
@[simp] theorem delete_working : (t.delete k).working = t.working.delete k := rfl

private theorem load_eq_ok {db : DB} {version : Int} {t' : RWTree} (h : t.load db version = .ok t') :
    0 < version ∧ ∃ hash, db.lookupVersion version = some (hash, t'.readTree) ∧ t' = ⟨t'.readTree, t'.readTree, hash, version⟩ := by
  simp only [load] at h
  split_ifs at h with hv
  split at h
  · cases h
  · cases h
    exact ⟨by omega, _, ‹_›, rfl⟩

end RWTree

end BurrowState
