import BurrowState.Execution.RWTree

/-!
# The state store

`execution.State` (config.go): the height, the database, a cache over it, the versioned tree in the space `m` of
the cache and the reference space `r`.  The write view returns the state after a call and its error, since the Go
methods change the state before they return one; an updater is a tree of such calls (`Updater`), which `Update`
runs before it commits.  The lock is not modelled, and the codecs and hashes come from `Collaborators`.
-/

namespace BurrowState

/-! ### Payloads -/

structure BasePermissions where
  perms : UInt64
  setBit : UInt64
  deriving DecidableEq

structure AccountPermissions where
  base : BasePermissions
  roles : List String
  deriving DecidableEq

/-- `acm.Account`, with the fields the state store reads or sets. -/
structure Account where
  address : Address
  balance : UInt64
  permissions : AccountPermissions
  deriving DecidableEq

def globalPermissionsAddress : Address := ⟨List.replicate addressLength 0, List.length_replicate _ _⟩

/-- `names.Entry` (Go's `Name` is a string, here its bytes). -/
structure Entry where
  name : Bytes
  owner : Address
  data : String
  expires : UInt64
  deriving DecidableEq

/-- `exec.TxExecution`, with the field the state store reads. -/
structure TxExecution where
  txHash : Bytes
  deriving DecidableEq

/-- `exec.BlockExecution`, with the fields the state store reads. -/
structure BlockExecution where
  height : UInt64
  txExecutions : List TxExecution
  deriving DecidableEq

structure CommitID where
  hash : Bytes
  height : UInt64
  version : Int
  deriving DecidableEq

structure GenesisAccount where
  address : Address
  amount : UInt64
  permissions : AccountPermissions

/-- `genesis.GenesisDoc`, with what `MakeGenesisState` reads. -/
structure GenesisDoc where
  validators : Nat
  accounts : List GenesisAccount
  globalPermissions : AccountPermissions

/-- An injected encoder and decoder of a payload (the `Encode` methods and the `Decode` functions). -/
structure Codec (α : Type) where
  encode : α → Except GoError Bytes
  decode : Bytes → Except GoError α

/-- The decoder inverts the encoder. -/
def Codec.RoundTrip {α : Type} (c : Codec α) : Prop := ∀ a bs, c.encode a = .ok bs → c.decode bs = .ok a

/-- What the state store takes from its collaborators (spec §6): the codecs, the hash of a sealed version, the
error of a `Save` that fails, and `permission.AllPermFlags`. -/
structure Collaborators where
  account : Codec Account
  entry : Codec Entry
  block : Codec BlockExecution
  commitID : Codec CommitID
  treeHash : Int → KVStore → Bytes
  saveError : Int → KVStore → Option GoError
  allPermFlags : UInt64

/-! ### The state -/

structure State where
  height : UInt64
  db : DB
  cacheDB : DB
  tree : RWTree

/-- `NewState`: an empty cache over `db`, and a new tree in it. -/
def newState (db : DB) : State := ⟨0, db, db, RWTree.newRWTree⟩

namespace State

/-- `s.refs`, the reference space of the cache. -/
def refs (s : State) : PrefixKVStore := refsPrefix.store s.cacheDB.kv

def setRef (s : State) (key value : Bytes) : State := { s with cacheDB := { s.cacheDB with kv := s.refs.set key value } }

variable (env : Collaborators)

/-! ### The write view -/

/-- `writeState.UpdateAccount`; `none` is a `nil` account. -/
def updateAccount (s : State) : Option Account → State × Option GoError
  | none => (s, some (.error "UpdateAccount passed nil account in State"))
  | some account =>
    match env.account.encode account with
    | .error _ => (s, some (.error "UpdateAccount could not encode account: %v"))
    | .ok encodedAccount => ({ s with tree := s.tree.set (accountKey account.address) encodedAccount }, none)

def removeAccount (s : State) (address : Address) : State × Option GoError :=
  ({ s with tree := s.tree.delete (accountKey address) }, none)

/-- `writeState.SetStorage`: the zero word deletes the slot. -/
def setStorage (s : State) (address : Address) (key value : Word256) : State × Option GoError :=
  if value = zero256 then ({ s with tree := s.tree.delete (storageKey address key) }, none)
  else ({ s with tree := s.tree.set (storageKey address key) value.val }, none)

def updateName (s : State) (entry : Entry) : State × Option GoError :=
  match env.entry.encode entry with
  | .error err => (s, some err)
  | .ok bs => ({ s with tree := s.tree.set (nameKey entry.name) bs }, none)

def removeName (s : State) (name : Bytes) : State × Option GoError :=
  ({ s with tree := s.tree.delete (nameKey name) }, none)

def addTx (s : State) (txHash : Bytes) (height index : UInt64) : State :=
  s.setRef (txKeyFormat.key [txHash]) (txRefKeyFormat.key [uint64BE height, uint64BE index])

/-- `writeState.AddBlock`: checks the height, moves to it and indexes the transactions, then encodes and stores
the block; an encoding error is returned after the first two steps. -/
def addBlock (s : State) (be : BlockExecution) : State × Option GoError :=
  if s.height > 0 ∧ be.height ≠ s.height + 1 then
    (s, some (.error "AddBlock received block for height %v but last block height was %v"))
  else
    let s := { s with height := be.height }
    let s := be.txExecutions.enum.foldl (fun s (i, txe) => s.addTx txe.txHash be.height i.toUInt64) s
    match env.block.encode be with
    | .error err => (s, some err)
    | .ok bs => (s.setRef (blockRefKeyFormat.key [uint64BE be.height]) bs, none)

end State

/-- A call of the `Updatable` interface. -/
inductive Write where
  | updateAccount (account : Option Account)
  | removeAccount (address : Address)
  | setStorage (address : Address) (key value : Word256)
  | updateName (entry : Entry)
  | removeName (name : Bytes)
  | addBlock (blockExecution : BlockExecution)

def Write.exec (env : Collaborators) (s : State) : Write → State × Option GoError
  | .updateAccount account => s.updateAccount env account
  | .removeAccount address => s.removeAccount address
  | .setStorage address key value => s.setStorage address key value
  | .updateName entry => s.updateName env entry
  | .removeName name => s.removeName name
  | .addBlock be => s.addBlock env be

/-- An updater, Go's `func(up Updatable) error`: a result, or a call of the write view and what follows its error. -/
inductive Updater where
  | done (err : Option GoError)
  | call (w : Write) (k : Option GoError → Updater)

/-- Runs an updater: the state after it, its error, and the calls that returned `nil`, in order. -/
def Updater.run (env : Collaborators) : Updater → State → State × Option GoError × List Write
  | .done err, s => (s, err, [])
  | .call w k, s =>
    let r := w.exec env s
    let rest := (k r.2).run env r.1
    (rest.1, rest.2.1, if r.2.isNone then w :: rest.2.2 else rest.2.2)

/-- The calls an updater makes of the write view, in order, whatever they returned. -/
def Updater.calls (env : Collaborators) : Updater → State → List Write
  | .done _, _ => []
  | .call w k, s =>
    let r := w.exec env s
    w :: (k r.2).calls env r.1

/-- The normalisation of `writeState.commit`: an empty hash becomes `tmhash.Size` zero bytes. -/
def normaliseHash (hash : Bytes) : Bytes := if hash.length = 0 then List.replicate tmhashSize 0 else hash

namespace State

variable (env : Collaborators)

/-- `writeState.commit`: seals the tree, stores the `CommitID` under the normalised hash, and flushes the cache. -/
def commit (s : State) : State × Except GoError Bytes :=
  match s.tree.save env.saveError env.treeHash s.cacheDB with
  | .error err => (s, .error err)
  | .ok (hash, treeVersion, tree, cacheDB) =>
    let hash := normaliseHash hash
    let s := { s with tree := tree, cacheDB := cacheDB }
    match env.commitID.encode ⟨hash, s.height, treeVersion⟩ with
    | .error _ => (s, .error (.error "could not encode CommitID %v: %v"))
    | .ok bs =>
      let s := s.setRef (commitKeyFormat.key [hash]) bs
      ({ s with db := s.cacheDB }, .ok hash)

/-- `Save` seals the working copy of `s`: the collaborators give it no error. -/
def Saves (s : State) : Prop := env.saveError (s.tree.version + 1) s.tree.working = none

/-- `State.Update`: runs the updater and commits unless it returned an error. -/
def update (s : State) (updater : Updater) : State × Except GoError Bytes :=
  match updater.run env s with
  | (s, some err, _) => (s, .error err)
  | (s, none, _) => s.commit env

end State

/-- A call of the write view as Go code that returns its error at once. -/
def orError (r : State × Option GoError) : Except GoError State :=
  match r.2 with
  | none => .ok r.1
  | some err => .error err

def GenesisAccount.account (genAcc : GenesisAccount) : Account := ⟨genAcc.address, genAcc.amount, genAcc.permissions⟩

/-- The account of the global permissions `MakeGenesisState` writes, with every permission flag set. -/
def permsAccount (env : Collaborators) (genesisDoc : GenesisDoc) : Account :=
  let globalPerms := genesisDoc.globalPermissions
  ⟨globalPermissionsAddress, 1337, { globalPerms with base := { globalPerms.base with setBit := env.allPermFlags } }⟩

/-- `MakeGenesisState`: the genesis accounts and global permissions written into a new state, and a commit. -/
def makeGenesisState (env : Collaborators) (db : DB) (genesisDoc : GenesisDoc) : Except GoError State := do
  if genesisDoc.validators = 0 then throw (.error "the genesis file has no validators")
  let s := newState db
  let s ← genesisDoc.accounts.foldlM (fun s genAcc => orError (s.updateAccount env (some genAcc.account))) s
  let s ← orError (s.updateAccount env (some (permsAccount env genesisDoc)))
  let (s, r) := s.commit env
  let _ ← r
  pure s

/-- `LoadState`: a new state over `db`, its tree loaded at the version of the `CommitID` under `hash`; the height
stays that of `NewState`. -/
def loadState (env : Collaborators) (db : DB) (hash : Bytes) : Except GoError State := do
  let s := newState db
  let commitID ← (env.commitID.decode ((s.refs.get (commitKeyFormat.key [hash])).getD [])).mapError
    fun _ => .error "could not decode CommitID: %v"
  if commitID.version ≤ 0 then throw (.error "trying to load state from non-positive version: CommitID: %v")
  let tree ← (s.tree.load s.cacheDB commitID.version).mapError
    fun _ => .error "could not load current version of state tree: CommitID: %v"
  pure { s with tree := tree }

/-- `State.Copy`: the last saved version of `s` set into a new state over `db`, in key order, and a commit. -/
def State.copy (env : Collaborators) (s : State) (db : DB) : Except GoError State :=
  let stateCopy := (s.tree.iterateRange none none true
    (fun (stateCopy : State) key value => ({ stateCopy with tree := stateCopy.tree.set key value }, false))
    (newState db)).1
  let (stateCopy, r) := stateCopy.commit env
  match r with
  | .error err => .error err
  | .ok _ => .ok stateCopy

end BurrowState
