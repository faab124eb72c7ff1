import IavlStore.Db.Versions
import IavlStore.Multi.Upgrades

/-! The root multistore over the database. Every mounted store collects the writes of its
callers; before a commit, and whenever the working hash is asked for, the collected change
sets are flushed to the database in the order of the store names. Loading adds the mounted
stores to an empty database and applies the upgrades it is given.

A call of the main thread comes with the steps of the other threads until the next call.
Beside it stands a replica that has no disk: it is never closed, and its calls act on one
multitree. Stores that are not kept in a tree are left out. -/

namespace IavlStore.Rootmulti

open IavlStore.Base.Encoding IavlStore.Multi IavlStore.Db

/-- Names to delete, names to add, and pairs of an old and a new name; an empty old name
is `none`. -/
structure StoreUpgrades (N : Type) where
  deleted : List N
  added : List N
  renamed : List (Option N × N)

/-- The database and the mounted stores with the writes since the last flush. -/
structure Store (N : Type) (W : WalLog (WALEntry N)) where
  world : World N W
  stores : List (N × ChangeSet)

inductive Call (N : Type) where
  | load (mounts : List N) (upgrades : StoreUpgrades N)
  | setInitialVersion (initialVersion : ℕ)
  | set (name : N) (key : Bytes) (value : Option Bytes)
  | delete (name : N) (key : Bytes)
  | workingHash
  | commit
  | close

variable {N : Type} [LinearOrder N] {W : WalLog (WALEntry N)} (sha256 : Bytes → Bytes) (opts : Options)

def StoreUpgrades.none : StoreUpgrades N := ⟨[], [], []⟩

def treeUpgrades (upgrades : StoreUpgrades N) : List (TreeNameUpgrade N) :=
  upgrades.deleted.map (⟨·, .none, true⟩) ++ upgrades.added.map (⟨·, .none, false⟩) ++
    upgrades.renamed.map fun r => ⟨r.2, r.1, false⟩

def sortNames (names : List N) : List N := names.insertionSort (· ≤ ·)

/-! ### Writes and flushes -/

/-- Append a change to a mounted store. -/
def addPair (name : N) (p : KVPair) (stores : List (N × ChangeSet)) : List (N × ChangeSet) :=
  stores.map fun s => if s.1 = name then (s.1, s.2 ++ [p]) else s

/-- The change sets of the stores that have any, in the order of the names. -/
def popChangeSets (stores : List (N × ChangeSet)) : List (NamedChangeSet N) :=
  sortChangesets ((stores.filter fun s => s.2 ≠ []).map fun s => ⟨s.1, s.2⟩)

def clearStores (stores : List (N × ChangeSet)) : List (N × ChangeSet) := stores.map fun s => (s.1, [])

/-- Flush to an open database, `none` for the panic on an error. -/
def flush (db : DB N) (stores : List (N × ChangeSet)) : Option (DB N) :=
  match db.working.applyChangeSets (popChangeSets stores) with
  | (_, some _) => .none
  | (working, .none) => some { db with working := working }

/-! ### The other threads -/

/-- Steps of a commit in progress, of the writer, the rewrite and the pruning. -/
def isBackground : Event N → Bool
  | .finish | .await | .switch | .receive _ | .write | .rewrite | .rewriteFail | .prune _ => true
  | _ => false

/-- Background steps, `none` for the panic when a commit returns an error. -/
def background : World N W → List (Event N) → Option (World N W)
  | s, [] => some s
  | s, e :: es =>
    if isBackground e then
      match step sha256 opts s e with
      | .none => .none
      | some (_, .returned false) => .none
      | some (s, _) => background s es
    else .none

def World.isIdle (s : World N W) : Bool :=
  match s.db with
  | some ⟨_, _, .idle, _, _, _, _, _⟩ => true
  | _ => false

/-! ### Calls -/

/-- Load a version and apply upgrades; the target zero stands for the latest version. Mounting
a name twice panics, and every mounted store must have a tree. -/
def load (target : ℕ) (mounts : List N) (upgrades : StoreUpgrades N) (disk : Disk N W) : Option (Store N W) :=
  if mounts.Nodup then
    match loadVersion sha256 target (sortNames mounts) disk with
    | some ⟨disk, some db⟩ =>
      match db.working.applyUpgrades (treeUpgrades upgrades) with
      | (_, some _) => .none
      | (working, .none) =>
        if ∀ name ∈ mounts, name ∈ working.mtree.names then
          some ⟨⟨disk, some { db with working := working }⟩, mounts.map (·, [])⟩
        else .none
    | _ => .none
  else .none

theorem load_eq_some {sha256 : Bytes → Bytes} {target : ℕ} {mounts : List N} {upgrades : StoreUpgrades N}
    {disk : Disk N W} {s : Store N W} (h : load sha256 target mounts upgrades disk = some s) :
    ∃ disk' db working, mounts.Nodup ∧ loadVersion sha256 target (sortNames mounts) disk = some ⟨disk', some db⟩ ∧
      db.working.applyUpgrades (treeUpgrades upgrades) = (working, .none) ∧
      (∀ name ∈ mounts, name ∈ working.mtree.names) ∧
      s = ⟨⟨disk', some { db with working := working }⟩, mounts.map (·, [])⟩ := by
  unfold load at h
  split_ifs at h with hnd
  rcases hl : loadVersion sha256 target (sortNames mounts) disk with _ | ⟨disk', _ | db⟩ <;>
    simp only [hl, reduceCtorEq] at h
  rcases hu : db.working.applyUpgrades (treeUpgrades upgrades) with ⟨working, _ | err⟩ <;>
    simp only [hu, reduceCtorEq] at h
  split_ifs at h with hnames
  exact ⟨disk', db, working, hnd, rfl, hu, hnames, (Option.some.inj h).symm⟩

/-- What a call does before the other threads run; working hashes give a commit info. -/
def call (s : Store N W) (db : DB N) : Call N → Option (Store N W × Option (CommitInfo N))
  | .load _ _ => .none
  | .setInitialVersion v => do
    some (⟨← Db.setInitialVersion v s.world.disk db, s.stores⟩, .none)
  | .set name key value =>
    if name ∈ s.stores.map Prod.fst then
      some (⟨s.world, addPair name ⟨false, key, value⟩ s.stores⟩, .none)
    else .none
  | .delete name key =>
    if name ∈ s.stores.map Prod.fst then
      some (⟨s.world, addPair name ⟨true, key, .none⟩ s.stores⟩, .none)
    else .none
  | .workingHash => do
    let db ← flush db s.stores
    some (⟨⟨s.world.disk, some db⟩, clearStores s.stores⟩, some (db.working.mtree.workingCommitInfo sha256))
  | .commit => do
    let db ← flush db s.stores
    let (world, _) ← Db.commit sha256 opts s.world.disk db
    some (⟨world, clearStores s.stores⟩, .none)
  | .close => .none

/-- A call and the steps of the other threads after it. A commit returns when the database
is idle again, and closing waits for the other threads first. -/
def step (s : Store N W) (e : Call N × List (Event N)) : Option (Store N W × Option (CommitInfo N)) :=
  match s.world.db, e.1 with
  | .none, .load mounts upgrades => do
    let s ← load sha256 0 mounts upgrades s.world.disk
    let world ← background sha256 opts s.world e.2
    some (⟨world, s.stores⟩, .none)
  | .none, _ => .none
  | some _, .close => do
    let world ← background sha256 opts s.world e.2
    let (world, _) ← Db.step sha256 opts world .close
    some (⟨world, []⟩, .none)
  | some db, c => do
    let (s, info) ← call sha256 opts s db c
    let world ← background sha256 opts s.world e.2
    match c, world.db with
    | .commit, some db =>
      if World.isIdle world then some (⟨world, s.stores⟩, some db.working.mtree.lastCommitInfo) else .none
    | _, _ => some (⟨world, s.stores⟩, info)

/-! ### Inversion -/

section Inversion
variable {sha256 opts}

theorem open_of_background {world world' : World N W} {es : List (Event N)} (hopen : world.db ≠ none)
    (h : background sha256 opts world es = some world') : world'.db ≠ none := by
  induction es generalizing world with
  | nil =>
    cases h
    exact hopen
  | cons e es ih =>
    rw [background] at h
    split_ifs at h with he
    rcases hs : Db.step sha256 opts world e with _ | ⟨world₁, o⟩
    · simp only [hs, reduceCtorEq] at h
    have h₁ : background sha256 opts world₁ es = some world' := by
      rcases o with _ | t | _ | _ <;> simp only [hs, reduceCtorEq] at h <;> exact h
    refine ih ?_ h₁
    cases fires_of_step hs with
    | write hf =>
      rcases write_eq_some hf with ⟨wal, -, rfl⟩ | ⟨-, rfl⟩ <;> simp
    | receive | rewrite | rewriteFail | prune | finish | await | switch => simp
    | load | kill | setInitialVersion | applyUpgrades | applyChangeSets | commit | close => cases he

omit [LinearOrder N] in
theorem idle_of_isIdle {world : World N W} {db : DB N} (h : World.isIdle world = true) (hdb : world.db = some db) :
    db.phase = .idle := by
  obtain ⟨disk, _⟩ := world
  obtain rfl : _ = some db := hdb
  obtain ⟨working, sv, phase, chan, batch, failed, rewrite, pruning⟩ := db
  cases phase with
  | idle => rfl
  | checking v => cases h
  | waiting v t sv => cases h

omit [LinearOrder N] in
theorem isIdle_of_idle {db : DB N} (h : db.phase = .idle) (disk : Disk N W) :
    World.isIdle ⟨disk, some db⟩ = true := by
  obtain ⟨working, sv, phase, chan, batch, failed, rewrite, pruning⟩ := db
  obtain rfl : phase = .idle := h
  rfl

variable (sha256 opts)

/-- What the calls do, one by one. -/
inductive Answers : Store N W → Call N × List (Event N) → Store N W → Option (CommitInfo N) → Prop
  | load {disk stores mounts upgrades es s world} : load sha256 0 mounts upgrades disk = some s →
    background sha256 opts s.world es = some world →
    Answers ⟨⟨disk, .none⟩, stores⟩ (.load mounts upgrades, es) ⟨world, s.stores⟩ .none
  | setInitialVersion {disk db stores v es world world'} : Db.setInitialVersion v disk db = some world →
    background sha256 opts world es = some world' →
    Answers ⟨⟨disk, some db⟩, stores⟩ (.setInitialVersion v, es) ⟨world', stores⟩ .none
  | set {disk db stores name key value es world} : name ∈ stores.map Prod.fst →
    background sha256 opts ⟨disk, some db⟩ es = some world →
    Answers ⟨⟨disk, some db⟩, stores⟩ (.set name key value, es)
      ⟨world, addPair name ⟨false, key, value⟩ stores⟩ .none
  | delete {disk db stores name key es world} : name ∈ stores.map Prod.fst →
    background sha256 opts ⟨disk, some db⟩ es = some world →
    Answers ⟨⟨disk, some db⟩, stores⟩ (.delete name key, es) ⟨world, addPair name ⟨true, key, .none⟩ stores⟩ .none
  | workingHash {disk db db' stores es world} : flush db stores = some db' →
    background sha256 opts ⟨disk, some db'⟩ es = some world →
    Answers ⟨⟨disk, some db⟩, stores⟩ (.workingHash, es) ⟨world, clearStores stores⟩
      (some (db'.working.mtree.workingCommitInfo sha256))
  | commit {disk db db' db'' stores es world world' t} : flush db stores = some db' →
    Db.commit sha256 opts disk db' = some (world, t) → background sha256 opts world es = some world' →
    world'.db = some db'' → db''.phase = .idle →
    Answers ⟨⟨disk, some db⟩, stores⟩ (.commit, es) ⟨world', clearStores stores⟩
      (some db''.working.mtree.lastCommitInfo)
  | close {disk db stores es world world' o} : background sha256 opts ⟨disk, some db⟩ es = some world →
    Db.step sha256 opts world .close = some (world', o) →
    Answers ⟨⟨disk, some db⟩, stores⟩ (.close, es) ⟨world', []⟩ .none

theorem answers_of_step {s s' : Store N W} {e : Call N × List (Event N)} {o : Option (CommitInfo N)}
    (h : step sha256 opts s e = some (s', o)) : Answers sha256 opts s e s' o := by
  obtain ⟨⟨disk, db⟩, stores⟩ := s
  obtain ⟨c, es⟩ := e
  rcases db with _ | db
  · cases c with
    | load mounts upgrades =>
      simp only [step, Option.bind_eq_bind, Option.bind_eq_some_iff, Option.some.injEq, Prod.mk.injEq] at h
      obtain ⟨s₁, hl, world, hb, rfl, rfl⟩ := h
      exact .load hl hb
    | setInitialVersion | set | delete | workingHash | commit | close => simp [step] at h
  · cases c with
    | load mounts upgrades => simp [step, call] at h
    | setInitialVersion v =>
      simp only [step, call, Option.bind_eq_bind, Option.bind_eq_some_iff, Option.some.injEq] at h
      obtain ⟨_, ⟨world, hv, rfl⟩, world', hb, h⟩ := h
      cases h
      exact .setInitialVersion hv hb
    | set name key value =>
      simp only [step, call, Option.bind_eq_bind, Option.bind_eq_some_iff, Option.ite_none_right_eq_some] at h
      obtain ⟨_, ⟨hname, hs⟩, world, hb, h⟩ := h
      cases hs
      cases h
      exact .set hname hb
    | delete name key =>
      simp only [step, call, Option.bind_eq_bind, Option.bind_eq_some_iff, Option.ite_none_right_eq_some] at h
      obtain ⟨_, ⟨hname, hs⟩, world, hb, h⟩ := h
      cases hs
      cases h
      exact .delete hname hb
    | workingHash =>
      simp only [step, call, Option.bind_eq_bind, Option.bind_eq_some_iff, Option.some.injEq] at h
      obtain ⟨_, ⟨db', hf, rfl⟩, world, hb, h⟩ := h
      cases h
      exact .workingHash hf hb
    | commit =>
      simp only [step, call, Option.bind_eq_bind, Option.bind_eq_some_iff, Option.some.injEq] at h
      obtain ⟨_, ⟨db', hf, ⟨world, t⟩, hc, rfl⟩, world', hb, h⟩ := h
      have hopen : world.db ≠ .none := by
        obtain ⟨-, ⟨-, rfl⟩ | ⟨-, wal, -, rfl⟩⟩ := commit_eq_some hc <;> simp
      rcases hdb : world'.db with _ | db''
      · exact absurd hdb (open_of_background hopen hb)
      · simp only [hdb, Option.ite_none_right_eq_some] at h
        obtain ⟨hidle, h⟩ := h
        cases h
        exact .commit hf hc hb hdb (idle_of_isIdle hidle hdb)
    | close =>
      simp only [step, Option.bind_eq_bind, Option.bind_eq_some_iff, Option.some.injEq] at h
      obtain ⟨world, hb, ⟨world', o'⟩, hc, h⟩ := h
      cases h
      exact .close hb hc

end Inversion

/-! ### The replica -/

/-- One multitree in memory and the writes since the last flush. -/
structure Replica (N : Type) where
  mtree : MultiTree N
  stores : List (N × ChangeSet)

def Replica.flush (r : Replica N) : Replica N :=
  ⟨(r.mtree.applyChangeSets (popChangeSets r.stores)).1, clearStores r.stores⟩

/-- A call on the replica. Closing and loading do nothing, except that the first load adds
the mounted stores and every load applies its upgrades. -/
def Replica.step (r : Replica N) : Call N → Replica N × Option (CommitInfo N)
  | .load mounts upgrades =>
    let mtree := (initialWorking (sortNames mounts) r.mtree).1.mtree
    (⟨(mtree.applyUpgrades (treeUpgrades upgrades)).1, mounts.map (·, [])⟩, .none)
  | .setInitialVersion v => ({ r with mtree := r.mtree.assignInitialVersion v }, .none)
  | .set name key value => ({ r with stores := addPair name ⟨false, key, value⟩ r.stores }, .none)
  | .delete name key => ({ r with stores := addPair name ⟨true, key, .none⟩ r.stores }, .none)
  | .workingHash => (r.flush, some (r.flush.mtree.workingCommitInfo sha256))
  | .commit =>
    let mtree := (r.flush.mtree.saveVersion sha256 true).toOption.getD r.flush.mtree
    (⟨mtree, r.flush.stores⟩, some mtree.lastCommitInfo)
  | .close => (r, .none)

end IavlStore.Rootmulti
