import IavlStore.Multi.Contents
import IavlStore.Rootmulti.Restart
import IavlStore.VersionDb.Latest

/-! A node with a version database. The writes of a block go to the root multistore, and a
listener of the store that they name collects them. After a commit the collected pairs are put
into the version database with the number of the block. When the node starts, the version
database is opened at the version of the multistore, and all listeners are new.

The process may end at any time, be it closed, killed or rolled back by a command of its own.
Stores that are not kept in a tree are left out. -/

namespace IavlStore.Streaming

open IavlStore.Base.Encoding IavlStore.Base.SortedPairs IavlStore.Multi IavlStore.Rootmulti
open IavlStore.VersionDb (StoreKVPair PlainRocksDB)

/-- The multistore, its listeners by the name of their store, the streaming service and the
version database. -/
structure Node (L : RollbackLog (WALEntry Bytes)) (R : PlainRocksDB) where
  store : Rootmulti.Store Bytes L.toWalLog
  listeners : List (Bytes × List StoreKVPair)
  currentBlockNumber : ℤ
  versionDB : VersionDb.Store R.toRocksDB

/-! ### Listeners -/

/-- A store that has a listener keeps it. -/
def addListener (listeners : List (Bytes × List StoreKVPair)) (key : Bytes) : List (Bytes × List StoreKVPair) :=
  if key ∈ listeners.map Prod.fst then listeners else listeners ++ [(key, [])]

def addListeners (keys : List Bytes) (listeners : List (Bytes × List StoreKVPair)) :
    List (Bytes × List StoreKVPair) := keys.foldl addListener listeners

/-- The listener of a store takes a write of it; a store without one is not observed. -/
def onWrite (storeKey key : Bytes) (value : Option Bytes) (delete : Bool)
    (listeners : List (Bytes × List StoreKVPair)) : List (Bytes × List StoreKVPair) :=
  listeners.map fun l => if l.1 = storeKey then (l.1, l.2 ++ [⟨storeKey, delete, key, value.getD []⟩]) else l

/-- The collected pairs in the order of the store names, with the listeners emptied. The
listeners come in the order in which the map of them is gone through. -/
def popStateCache (listeners : List (Bytes × List StoreKVPair)) :
    List StoreKVPair × List (Bytes × List StoreKVPair) :=
  ((listeners.flatMap Prod.snd).insertionSort (·.storeKey ≤ ·.storeKey), listeners.map fun l => (l.1, []))

/-! ### Steps -/

inductive NodeEvent where
  | start (mounts : List Bytes) (upgrades : StoreUpgrades Bytes) (background : List (Db.Event Bytes))
  | listenFinalizeBlock (height : ℤ)
  | call (c : Call Bytes) (background : List (Db.Event Bytes))
  | kill (written : ℕ)
  | rollbackToVersion (target : ℕ)

/-- What the queries may rely on from now on. -/
inductive Published where
  | nothing
  | committed (mtree : MultiTree Bytes)
  | rolledBack (target : ℕ)

variable {L : RollbackLog (WALEntry Bytes)} {R : PlainRocksDB} (sha256 : Bytes → Bytes) (opts : Db.Options)

/-- Load the multistore, open the version database at its version and listen to the exposed keys. -/
def start (exposedKeys mounts : List Bytes) (upgrades : StoreUpgrades Bytes) (background : List (Db.Event Bytes))
    (s : Node L R) : Option (Node L R) := do
  let (store, _) ← Rootmulti.step sha256 opts s.store (.load mounts upgrades, background)
  let db ← store.world.db
  let history ← (⟨s.versionDB, []⟩ : VersionDb.History R).setupVersionDB db.working.mtree.version
  some ⟨store, addListeners exposedKeys [], 0, history.store⟩

/-- The listeners of a call. -/
def listen (listeners : List (Bytes × List StoreKVPair)) : Call Bytes → List (Bytes × List StoreKVPair)
  | .set name key value => onWrite name key value false listeners
  | .delete name key => onWrite name key none true listeners
  | .commit => (popStateCache listeners).2
  | _ => listeners

/-- What a call puts into the version database. -/
def listenCommit (s : Node L R) : Call Bytes → VersionDb.Store R.toRocksDB
  | .commit => s.versionDB.putAtVersion s.currentBlockNumber (popStateCache s.listeners).1
  | _ => s.versionDB

/-- A commit publishes the multitree in use. -/
def publish (store : Rootmulti.Store Bytes L.toWalLog) : Call Bytes → Published
  | .commit =>
    match store.world.db with
    | some db => .committed db.working.mtree
    | none => .nothing
  | _ => .nothing

/-- Load a target for overwriting, in a process that ends with it. -/
def rollbackToVersion (target : ℕ) (s : Node L R) : Option (Node L R) :=
  if target = 0 then none
  else do
    let world ← closed sha256 opts s.store.world
    let world ← Db.loadForOverwriting sha256 target [] world.disk
    some { s with store := ⟨⟨world.disk, none⟩, []⟩ }

def step (exposedKeys : List Bytes) (s : Node L R) : NodeEvent → Option (Node L R × Published)
  | .start mounts upgrades background =>
    (start sha256 opts exposedKeys mounts upgrades background s).map (·, .nothing)
  | .listenFinalizeBlock height => some ({ s with currentBlockNumber := height }, .nothing)
  | .call (.load _ _) _ => none
  | .call c background => do
    let (store, _) ← Rootmulti.step sha256 opts s.store (c, background)
    some (⟨store, listen s.listeners c, s.currentBlockNumber, listenCommit s c⟩, publish store c)
  | .kill written => do
    let (world, _) ← Db.step sha256 opts s.store.world (.kill written)
    some ({ s with store := ⟨world, []⟩ }, .nothing)
  | .rollbackToVersion target => (rollbackToVersion sha256 opts target s).map (·, .rolledBack target)

/-- A rollback takes back the multitrees above its target. -/
def Published.extend (ts : List (MultiTree Bytes)) : Published → List (MultiTree Bytes)
  | .nothing => ts
  | .committed t => ts ++ [t]
  | .rolledBack target => ts.filter (·.version ≤ target)

/-- The committed multitrees that no rollback has taken back. -/
def lineage (os : List Published) : List (MultiTree Bytes) := os.foldl Published.extend []

/-- A node that has never run, with an initial version. -/
def newNode (L : RollbackLog (WALEntry Bytes)) (R : PlainRocksDB) (initialVersion : ℕ) : Node L R :=
  ⟨⟨⟨Db.freshDisk L.toWalLog (MultiTree.newEmptyMultiTree initialVersion), none⟩, []⟩, [], 0, .newStore R.new⟩

/-- The initial version is not changed once trees have one, a block has the number of the version
that it is committed at, version numbers do not overflow, and no entry of the log is lost when
the process is killed. -/
def Regular (s : Node L R) : NodeEvent → Prop
  | .call c _ => ∀ db ∈ s.store.world.db, match c with
    | .setInitialVersion v => db.working.mtree.trees = [] ∨ db.working.mtree.initialVersion ≤ 1 ∨
        v = db.working.mtree.initialVersion
    | .commit => nextVersion db.working.mtree.version db.working.mtree.initialVersion ≤ maxInt64 ∧
        s.currentBlockNumber = nextVersion db.working.mtree.version db.working.mtree.initialVersion
    | _ => True
  | .kill written => ∀ db ∈ s.store.world.db, db.walChan = [] ∧ db.batch.length ≤ written
  | _ => True

instance (s : Node L R) : (e : NodeEvent) → Decidable (Regular s e)
  | .call (.setInitialVersion _) _ => inferInstanceAs (Decidable (∀ db ∈ s.store.world.db, _ ∨ _ ∨ _))
  | .call .commit _ => inferInstanceAs (Decidable (∀ db ∈ s.store.world.db, _ ≤ _ ∧ _ = _))
  | .kill _ => inferInstanceAs (Decidable (∀ db ∈ s.store.world.db, db.walChan = [] ∧ _ ≤ _))
  | .call (.load _ _) _ | .call (.set _ _ _) _ | .call (.delete _ _) _ | .call .workingHash _ | .call .close _ =>
    .isTrue fun _ _ => trivial
  | .start _ _ _ | .listenFinalizeBlock _ | .rollbackToVersion _ => .isTrue trivial

/-- No upgrade of a start deletes or renames the store, or renames another one to it. -/
def SparedBy (name : Bytes) : NodeEvent → Prop
  | .start _ upgrades _ => ∀ u ∈ treeUpgrades upgrades, MultiTree.Spares name u
  | _ => True

instance (name : Bytes) : (e : NodeEvent) → Decidable (SparedBy name e)
  | .start _ upgrades _ => inferInstanceAs (Decidable (∀ u ∈ treeUpgrades upgrades, MultiTree.Spares name u))
  | .listenFinalizeBlock _ | .call _ _ | .kill _ | .rollbackToVersion _ => .isTrue trivial

end IavlStore.Streaming
