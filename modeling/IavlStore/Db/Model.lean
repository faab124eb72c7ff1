import IavlStore.Db.Pending
import IavlStore.Multi.Snapshot

/-! The database as a machine. The main thread applies changes and commits; a writer takes
committed entries from a channel and appends them to the log in batches; a rewrite of the
snapshot runs in the background from a copy of the multitree; old snapshots are pruned in
the background after a switch. A commit has three parts, and the other threads may run
between them: saving and handing the entry to the log, checking the background tasks, and,
if a rewrite is done, waiting for the log and switching to the rewritten multitree. What
is on disk survives when the process is closed or killed.

The lock on the directory and read-only instances are left out, and a send on the channel
never blocks: a smaller buffer allows fewer runs. -/

namespace IavlStore.Db

open IavlStore.Base.Encoding IavlStore.Base.SortedPairs IavlStore.Multi

structure Options where
  snapshotInterval : ℕ
  snapshotKeepRecent : ℕ
  /-- Entries go through the channel; otherwise a commit writes the log itself. -/
  asyncCommit : Bool

/-- The snapshot directories by version, the version the `current` link points to, a link
that is about to replace it, and the log. -/
structure Disk (N : Type) (W : WalLog (WALEntry N)) where
  snapshots : List (ℕ × SnapshotDir N)
  current : ℕ
  currentTmp : Option ℕ
  wal : W.Log

/-- A background rewrite, by what it has done last. -/
inductive Rewrite (N : Type) where
  | copied (mtree : MultiTree N)
  | written (mtree : MultiTree N)
  | renamed (version : ℕ)
  | tmpLinked (version : ℕ)
  | linked
  | loaded (mtree : MultiTree N) (snapshotVersion : ℕ)
  | ready (mtree : MultiTree N) (snapshotVersion : ℕ)
  | failed
  | closed

/-- Pruning of snapshots: not begun, or with these versions still to visit. -/
inductive Pruning where
  | started
  | visiting (currentVersion : ℕ) (todo : List ℕ) (counter earliestVersion : ℕ)

/-- Where the main thread is in a commit of version `v`. -/
inductive Phase (N : Type) where
  | idle
  | checking (v : ℕ)
  | waiting (v : ℕ) (mtree : MultiTree N) (snapshotVersion : ℕ)

structure DB (N : Type) where
  working : Working N
  snapshotVersion : ℕ
  phase : Phase N
  walChan : List (ℕ × WALEntry N)
  /-- The entries the writer has taken and not yet written. -/
  batch : List (ℕ × WALEntry N)
  writerFailed : Bool
  rewrite : Option (Rewrite N)
  pruning : Option Pruning

/-- The disk and the process that has the database open. -/
structure World (N : Type) (W : WalLog (WALEntry N)) where
  disk : Disk N W
  db : Option (DB N)

inductive Event (N : Type) where
  | load (initialStores : List N)
  | setInitialVersion (initialVersion : ℕ)
  | applyUpgrades (upgrades : List (TreeNameUpgrade N))
  | applyChangeSets (changeSets : List (NamedChangeSet N))
  | commit
  | finish
  | await
  | switch
  | receive (more : ℕ)
  | write
  | rewrite
  | rewriteFail
  | prune (removed : Bool)
  | close
  | kill (written : ℕ)

/-- What a step tells: a commit saved a multitree, or it returned, with or without an error. -/
inductive Reply (N : Type) where
  | nothing
  | saved (mtree : MultiTree N)
  | returned (ok : Bool)

variable {N : Type} [LinearOrder N] {W : WalLog (WALEntry N)} (sha256 : Bytes → Bytes) (opts : Options)

def emptyEntry : WALEntry N := ⟨[], []⟩

def newDB (working : Working N) (snapshotVersion : ℕ) : DB N :=
  ⟨working, snapshotVersion, .idle, [], [], false, none, none⟩

/-! ### Loading -/

/-- An empty database has a snapshot of version zero. -/
def emptyDir (initialVersion : ℕ) : SnapshotDir N :=
  (MultiTree.newEmptyMultiTree initialVersion).writeSnapshot

def initEmptyDB (W : WalLog (WALEntry N)) (initialVersion : ℕ) : Disk N W :=
  ⟨[(0, emptyDir initialVersion)], 0, none, W.new⟩

/-- At version zero the initial stores are added. -/
def initialWorking (initialStores : List N) (mtree : MultiTree N) : Working N × Option (Error N) :=
  if mtree.version = 0 ∧ initialStores ≠ [] then
    (⟨mtree, emptyEntry⟩ : Working N).applyUpgrades (initialStores.map fun name => ⟨name, none, false⟩)
  else (⟨mtree, emptyEntry⟩, none)

/-- Load the current snapshot and replay the log. A link left over by an interrupted
rewrite is removed. -/
def load (initialStores : List N) (disk : Disk N W) : Option (World N W) := do
  let dir ← lookupPair disk.current disk.snapshots
  let mtree ← loadMultiTree dir
  let mtree ← mtree.catchupWAL sha256 W disk.wal 0
  match initialWorking initialStores mtree with
  | (_, some _) => none
  | (working, none) => some ⟨{ disk with currentTmp := none }, some (newDB working dir.commitInfo.version)⟩

/-- The empty snapshot is written again with the new initial version. -/
def setInitialVersion (initialVersion : ℕ) (disk : Disk N W) (db : DB N) : Option (World N W) :=
  if 0 < db.working.mtree.version then none
  else
    match db.working.mtree.setInitialVersion initialVersion with
    | .error _ => none
    | .ok mtree =>
      if disk.currentTmp.isSome then none
      else
        some ⟨{ disk with snapshots := (0, emptyDir initialVersion) :: erasePair 0 disk.snapshots, current := 0 },
          some { db with working := { db.working with mtree := mtree } }⟩

/-! ### Committing -/

/-- Entries the log already has are skipped. -/
def writeEntries (entries : List (ℕ × WALEntry N)) (w : W.Log) : Option W.Log :=
  W.writeBatch w (entries.filter fun e => W.lastIndex w < e.1)

/-- Save, hand the entry to the log and forget the pending changes. -/
def commit (disk : Disk N W) (db : DB N) : Option (World N W × MultiTree N) := do
  let mtree ← (db.working.mtree.saveVersion sha256 true).toOption
  let entry := (walIndex mtree.version mtree.initialVersion, db.working.pendingLog)
  let db := { db with working := ⟨mtree, emptyEntry⟩, phase := .checking mtree.version }
  if opts.asyncCommit then some (⟨disk, some { db with walChan := db.walChan ++ [entry] }⟩, mtree)
  else
    let wal ← writeEntries [entry] disk.wal
    some (⟨{ disk with wal := wal }, some db⟩, mtree)

/-- The latest version in the log, or the snapshot version if the log is empty. -/
def committedVersion (disk : Disk N W) (db : DB N) : ℕ :=
  if W.lastIndex disk.wal = 0 then db.snapshotVersion
  else walVersion (W.lastIndex disk.wal) db.working.mtree.initialVersion

/-- Start a rewrite at every interval unless one is running. -/
def rewriteIfApplicable (height : ℕ) (db : DB N) : DB N :=
  if height % opts.snapshotInterval = 0 ∧ db.rewrite.isNone then
    { db with rewrite := some (.copied db.working.mtree) }
  else db

/-- The end of a commit; it is an error when the writer has failed. -/
def endCommit (height : ℕ) (db : DB N) : DB N × Bool :=
  if db.writerFailed then ({ db with phase := .idle }, false)
  else (rewriteIfApplicable opts height { db with phase := .idle }, true)

/-- The check finds no rewritten multitree. A failed rewrite is an error of the commit. -/
def finish (db : DB N) : Option (DB N × Bool) :=
  match db.phase, db.rewrite with
  | .checking _, some (.ready _ _) => none
  | .checking _, some .failed => some ({ db with phase := .idle, rewrite := none }, false)
  | .checking v, some .closed => some (endCommit opts v { db with rewrite := none })
  | .checking v, _ => some (endCommit opts v db)
  | _, _ => none

/-- The check receives a rewritten multitree. -/
def await (db : DB N) : Option (DB N) :=
  match db.phase, db.rewrite with
  | .checking v, some (.ready mtree sv) => some { db with phase := .waiting v mtree sv, rewrite := none }
  | _, _ => none

/-- Once the log has all committed versions, replay the rest and switch. A failed replay is
an error of the commit. -/
def switch (disk : Disk N W) (db : DB N) : Option (DB N × Bool) :=
  match db.phase with
  | .waiting v mtree sv =>
    if db.working.mtree.version = committedVersion disk db ∧ db.pruning.isNone then
      match mtree.catchupWAL sha256 W disk.wal 0 with
      | none => some ({ db with phase := .idle }, false)
      | some mtree =>
        match mtree.applyWALEntry db.working.pendingLog with
        | .error _ => none
        | .ok mtree =>
          some (endCommit opts v { db with
            working := { db.working with mtree := mtree }
            snapshotVersion := sv
            pruning := some .started })
    else none
  | _ => none

/-! ### The writer -/

/-- Take one entry and `more` of those that are queued behind it. -/
def receive (more : ℕ) (db : DB N) : Option (DB N) :=
  if db.batch = [] ∧ more < db.walChan.length ∧ db.writerFailed = false then
    some { db with batch := db.walChan.take (more + 1), walChan := db.walChan.drop (more + 1) }
  else none

/-- Write the batch, or fail for good. -/
def write (disk : Disk N W) (db : DB N) : Option (World N W) :=
  if db.batch = [] then none
  else
    match writeEntries db.batch disk.wal with
    | none => some ⟨disk, some { db with writerFailed := true, batch := [] }⟩
    | some wal => some ⟨{ disk with wal := wal }, some { db with batch := [] }⟩

/-! ### The rewrite -/

/-- The next step of a rewrite. It ends without a result when the snapshot exists or a
link is in the way, and with an error when the new snapshot cannot be loaded. -/
def rewriteStep (disk : Disk N W) : Rewrite N → Option (Disk N W × Rewrite N)
  | .copied mtree => some (disk, .written mtree)
  | .written mtree =>
    if (lookupPair mtree.version disk.snapshots).isSome then some (disk, .closed)
    else
      some ({ disk with snapshots := disk.snapshots ++ [(mtree.version, mtree.writeSnapshot)] },
        .renamed mtree.version)
  | .renamed v =>
    if disk.currentTmp.isSome then some (disk, .closed)
    else some ({ disk with currentTmp := some v }, .tmpLinked v)
  | .tmpLinked v => some ({ disk with current := v, currentTmp := none }, .linked)
  | .linked =>
    match lookupPair disk.current disk.snapshots with
    | none => some (disk, .failed)
    | some dir =>
      match loadMultiTree dir with
      | none => some (disk, .failed)
      | some mtree => some (disk, .loaded mtree dir.commitInfo.version)
  | .loaded mtree sv =>
    match mtree.catchupWAL sha256 W disk.wal 0 with
    | none => some (disk, .failed)
    | some mtree => some (disk, .ready mtree sv)
  | _ => none

/-- A rewrite can fail or be cancelled until the link is replaced. -/
def Rewrite.canFail : Rewrite N → Bool
  | .copied _ => true
  | .written _ => true
  | .renamed _ => true
  | _ => false

/-- A rewrite that a close need not wait for. -/
def Rewrite.isDone : Rewrite N → Bool
  | .ready _ _ => true
  | .failed => true
  | .closed => true
  | _ => false

/-! ### Pruning -/

/-- The next step of pruning. Snapshots from the current one on and the most recent older
ones are kept; an older one is removed unless it is locked or the removal fails. In the
end the log is truncated up to the earliest kept version. -/
def pruneStep (removed : Bool) (initialVersion : ℕ) (disk : Disk N W) :
    Pruning → Disk N W × Option Pruning
  | .started =>
    (disk, some (.visiting disk.current ((disk.snapshots.map Prod.fst).insertionSort (· ≥ ·))
      opts.snapshotKeepRecent 0))
  | .visiting cur (v :: todo) counter earliest =>
    if cur ≤ v ∨ 0 < counter then
      let earliest := if earliest = 0 ∨ v < earliest then v else earliest
      (disk, some (.visiting cur todo (if cur ≤ v then counter else counter - 1) earliest))
    else
      let disk := if removed then { disk with snapshots := erasePair v disk.snapshots } else disk
      (disk, some (.visiting cur todo counter earliest))
  | .visiting _ [] _ earliest =>
    let earliest := if earliest = 0 then (disk.snapshots.map Prod.fst).min? else some earliest
    match earliest with
    | none => (disk, none)
    | some e =>
      ({ disk with wal := (W.truncateFront disk.wal (walIndex (next e) initialVersion)).getD disk.wal },
        none)

/-! ### Steps -/

/-- A step of the machine, `none` when the event cannot happen or the database cannot be
loaded or saved. -/
def step (s : World N W) (e : Event N) : Option (World N W × Reply N) :=
  match s.db, e with
  | none, .load stores => do some (← load sha256 stores s.disk, .nothing)
  | none, _ => none
  | some db, e => do
    match e, db.phase with
    | .kill written, _ =>
      let wal := (writeEntries (db.batch.take written) s.disk.wal).getD s.disk.wal
      some (⟨{ s.disk with wal := wal }, none⟩, .nothing)
    | .receive more, _ => some (⟨s.disk, some (← receive more db)⟩, .nothing)
    | .write, _ => some (← write s.disk db, .nothing)
    | .rewrite, _ =>
      let (disk, r) ← rewriteStep sha256 s.disk (← db.rewrite)
      some (⟨disk, some { db with rewrite := some r }⟩, .nothing)
    | .rewriteFail, _ =>
      if (← db.rewrite).canFail then some (⟨s.disk, some { db with rewrite := some .closed }⟩, .nothing)
      else none
    | .prune removed, _ =>
      let (disk, p) := pruneStep opts removed db.working.mtree.initialVersion s.disk (← db.pruning)
      some (⟨disk, some { db with pruning := p }⟩, .nothing)
    | .finish, _ =>
      let (db, ok) ← finish opts db
      some (⟨s.disk, some db⟩, .returned ok)
    | .await, _ => some (⟨s.disk, some (← await db)⟩, .nothing)
    | .switch, _ =>
      let (db, ok) ← switch sha256 opts s.disk db
      some (⟨s.disk, some db⟩, .returned ok)
    | .setInitialVersion v, .idle => some (← setInitialVersion v s.disk db, .nothing)
    | .applyUpgrades us, .idle =>
      some (⟨s.disk, some { db with working := (db.working.applyUpgrades us).1 }⟩, .nothing)
    | .applyChangeSets cs, .idle =>
      some (⟨s.disk, some { db with working := (db.working.applyChangeSets cs).1 }⟩, .nothing)
    | .commit, .idle =>
      let (s, mtree) ← commit sha256 opts s.disk db
      some (s, .saved mtree)
    | .close, .idle =>
      if db.walChan = [] ∧ db.batch = [] ∧ (db.rewrite.all Rewrite.isDone) then
        some (⟨s.disk, none⟩, .nothing)
      else none
    | _, _ => none

end IavlStore.Db
