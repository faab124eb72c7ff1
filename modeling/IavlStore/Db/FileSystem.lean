import IavlStore.Db.Model
import IavlStore.Multi.UpgradeOrder

/-! The entries of a database directory and the file-system steps by which an empty database
is created and a snapshot is published. A snapshot is written in steps with its metadata
last, and the `current` link is created under a temporary name and then renamed. A load
that may create a missing database does so before it removes temporary entries. Where all
snapshots are finished, a directory is a disk of the database machine, and it is loaded as
that disk; publication leaves the old disk in view until its last step. -/

namespace IavlStore.Db

open IavlStore.Base.Encoding IavlStore.Base.SortedPairs IavlStore.Multi

/-- What a snapshot directory holds so far. The metadata file exists before its contents do. -/
structure Files (N : Type) where
  trees : List (NamedTree N)
  metadata : Option (Option (CommitInfo N × ℕ))

/-- The entries of a database directory. A link is the version of the snapshot it points to. -/
structure Root (N : Type) (W : WalLog (WALEntry N)) where
  snapshots : List (ℕ × Files N)
  tmpDirs : List (ℕ × Files N)
  current : Option ℕ
  currentTmp : Option ℕ
  wal : W.Log

inductive DirName where
  | snapshot (version : ℕ)
  | tmp (version : ℕ)

inductive FsStep (N : Type) where
  | mkdirAll (dir : DirName)
  | writeTree (dir : DirName) (tree : NamedTree N)
  | createMetadata (dir : DirName)
  | writeMetadata (dir : DirName) (commitInfo : CommitInfo N) (initialVersion : ℕ)
  | renameDir (version : ℕ)
  | symlink (version : ℕ)
  | renameLink

variable {N : Type} [LinearOrder N] {W : WalLog (WALEntry N)}

/-! ### Steps -/

/-- Directories are listed in the order of their names. A tree that is there is overwritten. -/
def Files.putTree (e : NamedTree N) (files : Files N) : Files N :=
  { files with trees := MultiTree.sortTrees (files.trees.filter (fun d => d.name ≠ e.name) ++ [e]) }

def Files.isEmpty (files : Files N) : Bool := files.trees.isEmpty && files.metadata.isNone

def makeIn (version : ℕ) (dirs : List (ℕ × Files N)) : List (ℕ × Files N) :=
  if (lookupPair version dirs).isSome then dirs else dirs ++ [(version, ⟨[], none⟩)]

def changeIn (f : Files N → Files N) (version : ℕ) (dirs : List (ℕ × Files N)) : List (ℕ × Files N) :=
  dirs.map fun p => if p.1 = version then (p.1, f p.2) else p

def Root.onDir (f : ℕ → List (ℕ × Files N) → List (ℕ × Files N)) (root : Root N W) : DirName → Root N W
  | .snapshot version => { root with snapshots := f version root.snapshots }
  | .tmp version => { root with tmpDirs := f version root.tmpDirs }

/-- A directory is renamed onto an empty one only, and a link is not created over another
one. A link replaces the one it is renamed to. -/
def FsStep.run (root : Root N W) : FsStep N → Option (Root N W)
  | .mkdirAll dir => some (root.onDir makeIn dir)
  | .writeTree dir e => some (root.onDir (changeIn (Files.putTree e)) dir)
  | .createMetadata dir => some (root.onDir (changeIn fun f => { f with metadata := some none }) dir)
  | .writeMetadata dir ci iv => some (root.onDir (changeIn fun f => { f with metadata := some (some (ci, iv)) }) dir)
  | .renameDir version => do
    let files ← lookupPair version root.tmpDirs
    let root := { root with tmpDirs := erasePair version root.tmpDirs }
    match lookupPair version root.snapshots with
    | none => some { root with snapshots := root.snapshots ++ [(version, files)] }
    | some old =>
      if old.isEmpty then some { root with snapshots := changeIn (fun _ => files) version root.snapshots }
      else none
  | .symlink version =>
    if root.currentTmp.isSome then none else some { root with currentTmp := some version }
  | .renameLink => do some { root with current := some (← root.currentTmp), currentTmp := none }

/-- Steps one after the other, up to one that fails. -/
def perform : List (FsStep N) → Root N W → Root N W × Bool
  | [], root => (root, true)
  | a :: steps, root =>
    match a.run root with
    | none => (root, false)
    | some root => perform steps root

/-- The trees are written by a pool of workers, in any order; the metadata comes last. -/
def writeSnapshotSteps (dir : DirName) (order : List (NamedTree N)) (t : MultiTree N) : List (FsStep N) :=
  .mkdirAll dir :: order.map (.writeTree dir) ++
    [.createMetadata dir, .writeMetadata dir t.lastCommitInfo t.initialVersion]

def updateCurrentSymlinkSteps (version : ℕ) : List (FsStep N) := [.symlink version, .renameLink]

def initEmptyDBSteps (initialVersion : ℕ) : List (FsStep N) :=
  writeSnapshotSteps (.snapshot 0) [] (.newEmptyMultiTree initialVersion) ++ updateCurrentSymlinkSteps 0

def rewriteSnapshotSteps (order : List (NamedTree N)) (t : MultiTree N) : List (FsStep N) :=
  writeSnapshotSteps (.tmp t.version) order t ++ .renameDir t.version :: updateCurrentSymlinkSteps t.version

/-! ### Loading a directory -/

/-- The metadata file of the current snapshot is looked for. -/
def createDBIfNotExist (initialVersion : ℕ) (root : Root N W) : Option (Root N W) :=
  if ((root.current.bind fun v => lookupPair v root.snapshots).bind Files.metadata).isSome then some root
  else
    match perform (initEmptyDBSteps initialVersion) root with
    | (root, true) => some root
    | (_, false) => none

def removeTmpDirs (root : Root N W) : Root N W := { root with tmpDirs := [], currentTmp := none }

/-- A snapshot can be opened once its metadata is written. -/
def Files.open (files : Files N) : Option (SnapshotDir N) := do
  let (commitInfo, initialVersion) ← files.metadata.join
  some ⟨commitInfo, initialVersion, files.trees⟩

/-- Load the current snapshot and replay the log. -/
def Root.loadCurrent (sha256 : Bytes → Bytes) (initialStores : List N) (root : Root N W) :
    Option (Root N W × DB N) := do
  let files ← lookupPair (← root.current) root.snapshots
  let dir ← files.open
  let mtree ← loadMultiTree dir
  let mtree ← mtree.catchupWAL sha256 W root.wal 0
  match initialWorking initialStores mtree with
  | (_, some _) => none
  | (working, none) => some (root, newDB working dir.commitInfo.version)

/-- Create what is missing, remove temporary entries, and load. -/
def Root.load (sha256 : Bytes → Bytes) (createIfMissing : Bool) (initialVersion : ℕ) (initialStores : List N)
    (root : Root N W) : Option (Root N W × DB N) :=
  (if createIfMissing then createDBIfNotExist initialVersion root else some root).bind fun root =>
    (removeTmpDirs root).loadCurrent sha256 initialStores

/-! ### Directories of finished snapshots -/

def Files.ofDir (dir : SnapshotDir N) : Files N := ⟨dir.trees, some (some (dir.commitInfo, dir.initialVersion))⟩

def filesOf (snapshots : List (ℕ × SnapshotDir N)) : List (ℕ × Files N) := snapshots.map fun p => (p.1, Files.ofDir p.2)

/-- Nothing temporary but perhaps a link. -/
def Root.ofDisk (disk : Disk N W) : Root N W :=
  ⟨filesOf disk.snapshots, [], some disk.current, disk.currentTmp, disk.wal⟩

/-- Apart from temporary entries the directory is this disk. -/
structure Root.Shows (root : Root N W) (disk : Disk N W) : Prop where
  snapshots : root.snapshots = filesOf disk.snapshots
  current : root.current = some disk.current
  wal : root.wal = disk.wal

omit [LinearOrder N] in
theorem lookupPair_filesOf (v : ℕ) (snapshots : List (ℕ × SnapshotDir N)) :
    lookupPair v (filesOf snapshots) = (lookupPair v snapshots).map Files.ofDir := by
  induction snapshots with
  | nil => rfl
  | cons p snapshots ih =>
    obtain ⟨a, dir⟩ := p
    rw [filesOf, List.map_cons, lookupPair_cons, lookupPair_cons, ← filesOf, ih]
    split_ifs <;> rfl

omit [LinearOrder N] in
theorem filesOf_concat (snapshots : List (ℕ × SnapshotDir N)) (v : ℕ) (dir : SnapshotDir N) :
    filesOf (snapshots ++ [(v, dir)]) = filesOf snapshots ++ [(v, Files.ofDir dir)] := by
  simp [filesOf]

omit [LinearOrder N] in
theorem Root.Shows.lookup {root : Root N W} {disk : Disk N W} (h : root.Shows disk) {dir : SnapshotDir N}
    (hdir : lookupPair disk.current disk.snapshots = some dir) :
    lookupPair disk.current root.snapshots = some (Files.ofDir dir) := by
  rw [h.snapshots, lookupPair_filesOf, hdir]
  rfl

/-- Nothing is created where a current snapshot is found. -/
theorem Root.Shows.createDBIfNotExist {root : Root N W} {disk : Disk N W} (h : root.Shows disk)
    (hdir : (lookupPair disk.current disk.snapshots).isSome) (iv : ℕ) :
    Db.createDBIfNotExist iv root = some root := by
  obtain ⟨dir, hdir⟩ := Option.isSome_iff_exists.mp hdir
  rw [Db.createDBIfNotExist, if_pos]
  simp [h.current, h.lookup hdir, Files.ofDir]

/-- A directory with a current snapshot is loaded as the disk it shows. -/
theorem Root.Shows.load_eq {root : Root N W} {disk : Disk N W} (h : root.Shows disk)
    (hdir : (lookupPair disk.current disk.snapshots).isSome) (sha256 : Bytes → Bytes) (create : Bool) (iv : ℕ)
    (stores : List N) :
    (root.load sha256 create iv stores).map Prod.snd = (Db.load sha256 stores disk).bind World.db := by
  have hcreate : (if create then Db.createDBIfNotExist iv root else some root) = some root := by
    rw [h.createDBIfNotExist hdir, ite_self]
  obtain ⟨dir, hdir⟩ := Option.isSome_iff_exists.mp hdir
  have hfiles := h.lookup hdir
  simp only [Root.load, hcreate, Option.bind_some, removeTmpDirs, loadCurrent, h.current, hfiles, h.wal, Db.load,
    hdir, Option.bind_eq_bind, Files.open, Files.ofDir, Option.join_some]
  rcases loadMultiTree dir with _ | t₀
  · rfl
  simp only [Option.bind_some]
  rcases t₀.catchupWAL sha256 W disk.wal 0 with _ | t
  · rfl
  simp only [Option.bind_some]
  rcases initialWorking stores t with ⟨working, _ | err⟩ <;> rfl

/-! ### Prefixes -/

theorem perform_append (steps steps' : List (FsStep N)) (root : Root N W) :
    perform (steps ++ steps') root =
      if (perform steps root).2 then perform steps' (perform steps root).1 else perform steps root := by
  induction steps generalizing root with
  | nil => rfl
  | cons a steps ih =>
    rw [List.cons_append, perform, perform]
    rcases a.run root with _ | root'
    · rfl
    · exact ih root'

/-- The step touches a temporary directory. -/
def FsStep.onTmp : FsStep N → Bool
  | .mkdirAll (.tmp _) | .writeTree (.tmp _) _ | .createMetadata (.tmp _) | .writeMetadata (.tmp _) _ _ => true
  | _ => false

/-- What happens in temporary directories leaves everything else. -/
theorem perform_onTmp {steps : List (FsStep N)} (h : ∀ a ∈ steps, a.onTmp = true) (root : Root N W) :
    ∃ tmpDirs, perform steps root = ({ root with tmpDirs := tmpDirs }, true) := by
  induction steps generalizing root with
  | nil => exact ⟨root.tmpDirs, rfl⟩
  | cons a steps ih =>
    obtain ⟨tmpDirs, hrun⟩ : ∃ tmpDirs, a.run root = some { root with tmpDirs := tmpDirs } := by
      have ha := h a (by simp)
      cases a with
      | mkdirAll dir | writeTree dir e | createMetadata dir | writeMetadata dir ci iv =>
        cases dir with
        | snapshot v => cases ha
        | tmp v => exact ⟨_, rfl⟩
      | renameDir | symlink | renameLink => cases ha
    obtain ⟨tmpDirs', hrest⟩ := ih (fun b hb => h b (by simp [hb])) { root with tmpDirs := tmpDirs }
    rw [perform, hrun]
    exact ⟨tmpDirs', hrest⟩

omit [LinearOrder N] in
theorem onTmp_writeSnapshotSteps (v : ℕ) (order : List (NamedTree N)) (t : MultiTree N) :
    ∀ a ∈ writeSnapshotSteps (.tmp v) order t, a.onTmp = true := by
  intro a ha
  simp only [writeSnapshotSteps, List.cons_append, List.mem_cons, List.mem_append, List.mem_map, List.not_mem_nil,
    or_false] at ha
  rcases ha with rfl | ⟨e, -, rfl⟩ | rfl | rfl <;> rfl

def Files.putTrees (order : List (NamedTree N)) (files : Files N) : Files N := order.foldl (fun f e => f.putTree e) files

/-- Trees of different names are all kept, in the order of the names. -/
theorem putTrees_spec {order : List (NamedTree N)} (files : Files N)
    (hnd : ((files.trees ++ order).map NamedTree.name).Nodup)
    (hs : files.trees.Pairwise fun a b => a.name ≤ b.name) :
    (files.putTrees order).trees.Perm (files.trees ++ order) ∧
      ((files.putTrees order).trees.Pairwise fun a b => a.name ≤ b.name) ∧
      (files.putTrees order).metadata = files.metadata := by
  induction order generalizing files with
  | nil => exact ⟨by simp [Files.putTrees], hs, rfl⟩
  | cons e order ih =>
    have hfilter : files.trees.filter (fun d => d.name ≠ e.name) = files.trees := by
      refine List.filter_eq_self.mpr fun d hd => ?_
      rw [List.map_append, List.nodup_append] at hnd
      simpa using hnd.2.2 d.name (List.mem_map_of_mem hd) e.name (by simp)
    have hput : (files.putTree e).trees.Perm (files.trees ++ [e]) := by
      rw [Files.putTree, hfilter]
      exact List.perm_insertionSort _ _
    have hperm : ((files.putTree e).trees ++ order).Perm (files.trees ++ e :: order) := by
      rw [List.append_cons]
      exact hput.append_right order
    obtain ⟨htrees, hsorted, hmeta⟩ := ih _ ((hperm.map NamedTree.name).nodup_iff.mpr hnd)
      (MultiTree.pairwise_sortTrees _)
    exact ⟨htrees.trans hperm, hsorted, hmeta⟩

theorem perform_writeTrees (v : ℕ) (order : List (NamedTree N)) (files : Files N) (root : Root N W) :
    perform (order.map (.writeTree (.tmp v))) { root with tmpDirs := [(v, files)] } =
      ({ root with tmpDirs := [(v, files.putTrees order)] }, true) := by
  induction order generalizing files with
  | nil => rfl
  | cons e order ih =>
    rw [List.map_cons, perform, Files.putTrees, List.foldl_cons, ← Files.putTrees, ← ih]
    simp [FsStep.run, Root.onDir, changeIn]

/-- A written snapshot holds the trees of the multitree. -/
theorem perform_writeSnapshotSteps {t : MultiTree N} (ht : t.Coherent) {order : List (NamedTree N)}
    (horder : order.Perm t.trees) (v : ℕ) (root : Root N W) (hempty : root.tmpDirs = []) :
    perform (writeSnapshotSteps (.tmp v) order t) root =
      ({ root with tmpDirs := [(v, Files.ofDir t.writeSnapshot)] }, true) := by
  have hnd : (order.map NamedTree.name).Nodup := ((horder.map NamedTree.name).nodup_iff).mpr ht.nodup
  obtain ⟨hperm, hsorted, -⟩ := putTrees_spec ⟨[], none⟩ hnd List.Pairwise.nil
  have htrees : (Files.putTrees order ⟨[], none⟩).trees = t.trees := by
    have hsort := MultiTree.sortTrees_eq_of_perm (hperm.trans horder)
      (((hperm.map NamedTree.name).nodup_iff).mpr hnd)
    rwa [ht.sortTrees, MultiTree.sortTrees, List.Pairwise.insertionSort_eq hsorted] at hsort
  have hmake : FsStep.run root (.mkdirAll (.tmp v)) = some { root with tmpDirs := [(v, ⟨[], none⟩)] } := by
    simp [FsStep.run, Root.onDir, makeIn, hempty]
  rw [writeSnapshotSteps, List.cons_append, perform, hmake]
  simp only [perform_append, perform_writeTrees, if_true]
  simp [perform, FsStep.run, Root.onDir, changeIn, Files.ofDir, htrees, MultiTree.writeSnapshot]

/-! ### Publication -/

/-- The disk once the new snapshot has its name. -/
def Disk.publish (t : MultiTree N) (disk : Disk N W) : Disk N W :=
  { disk with snapshots := disk.snapshots ++ [(t.version, t.writeSnapshot)] }

/-- After any number of steps the directory shows the old disk, with or without the new
snapshot, or, when no step failed and all were done, the new snapshot is current. -/
theorem rewriteSnapshotSteps_take {t : MultiTree N} (ht : t.Coherent) {order : List (NamedTree N)}
    (horder : order.Perm t.trees) (disk : Disk N W) (k : ℕ) :
    let root := (perform ((rewriteSnapshotSteps order t).take k) (Root.ofDisk disk)).1
    root.Shows disk ∨ lookupPair t.version disk.snapshots = none ∧
      (root.Shows (disk.publish t) ∨ root.Shows { disk.publish t with current := t.version }) := by
  intro root
  have hwrite := perform_writeSnapshotSteps ht horder t.version (Root.ofDisk disk) rfl
  rcases le_total k (writeSnapshotSteps (.tmp t.version) order t).length with hle | hle
  · have htmp : ∀ a ∈ (writeSnapshotSteps (.tmp t.version) order t).take k, a.onTmp = true :=
      fun a ha => onTmp_writeSnapshotSteps _ _ _ a (List.mem_of_mem_take ha)
    obtain ⟨tmpDirs, hp⟩ := perform_onTmp htmp (Root.ofDisk disk)
    have hroot : root = { Root.ofDisk disk with tmpDirs := tmpDirs } := by
      simp only [root, rewriteSnapshotSteps, List.take_append_of_le_length hle, hp]
    exact .inl (hroot ▸ ⟨rfl, rfl, rfl⟩)
  obtain ⟨m, rfl⟩ := Nat.exists_eq_add_of_le hle
  have hroot : root = (perform ((.renameDir t.version :: updateCurrentSymlinkSteps t.version).take m)
      { Root.ofDisk disk with tmpDirs := [(t.version, Files.ofDir t.writeSnapshot)] }).1 := by
    simp only [root, rewriteSnapshotSteps, List.take_length_add_append, perform_append, hwrite, if_true]
  rcases m with _ | m
  · exact .inl (hroot ▸ ⟨rfl, rfl, rfl⟩)
  rcases hdir : lookupPair t.version disk.snapshots with _ | dir
  · have hrename : FsStep.run { Root.ofDisk disk with tmpDirs := [(t.version, Files.ofDir t.writeSnapshot)] }
        (.renameDir t.version) = some (Root.ofDisk (disk.publish t)) := by
      simp [FsStep.run, Root.ofDisk, lookupPair_filesOf, hdir, lookupPair_cons, erasePair, Disk.publish,
        filesOf_concat]
    rw [List.take_succ_cons, perform, hrename] at hroot
    refine .inr ⟨rfl, ?_⟩
    rcases htmp : disk.currentTmp with _ | v <;> rcases m with _ | _ | m <;>
      simp only [updateCurrentSymlinkSteps, List.take_zero, List.take_succ_cons, perform, FsStep.run, Root.ofDisk,
        Disk.publish, htmp, List.take_nil, Option.isSome_none, Option.isSome_some, ↓reduceIte, Bool.false_eq_true,
        Option.bind_eq_bind, Option.bind_some] at hroot
    · exact .inl (hroot ▸ ⟨rfl, rfl, rfl⟩)
    · exact .inl (hroot ▸ ⟨rfl, rfl, rfl⟩)
    · exact .inr (hroot ▸ ⟨rfl, rfl, rfl⟩)
    all_goals exact .inl (hroot ▸ ⟨rfl, rfl, rfl⟩)
  · have hrename : FsStep.run { Root.ofDisk disk with tmpDirs := [(t.version, Files.ofDir t.writeSnapshot)] }
        (.renameDir t.version) = none := by
      simp [FsStep.run, Root.ofDisk, lookupPair_filesOf, hdir, lookupPair_cons, Files.isEmpty, Files.ofDir]
    rw [List.take_succ_cons, perform, hrename] at hroot
    exact .inl (hroot ▸ ⟨rfl, rfl, rfl⟩)

end IavlStore.Db
