import IavlStore.Db.Imported
import IavlStore.Rootmulti.Replica

/-! Restoring a store from a state-sync stream. The trees of the stream are imported under the height, the
snapshots before it are removed and the directory is loaded. The import writes into a temporary directory
that it may find filled, and the log of the directory stays: its first entry would now lead to the version
after the height, so the load replays it. A restore that succeeds therefore leaves what the stream
describes exactly when the log is empty and no other tree was left over. -/

namespace IavlStore.Rootmulti

open IavlStore.Base.Encoding IavlStore.Base.SortedPairs IavlStore.Base.Runs IavlStore.Tree IavlStore.Multi
open IavlStore.Db
open IavlStore.Persist (sizeHash ExportNode exportNodes treeNodes)

variable {N : Type} [LinearOrder N] {W : WalLog (WALEntry N)}

/-! ### The stream -/

/-- An item of the stream. Empty bytes are nil after they were decoded. -/
inductive SnapshotItem (N : Type) where
  | store (name : N)
  | iavl (key value : Option Bytes) (version height : ℤ)
  | extension

/-- The node of an item, with empty bytes where a leaf has nil. -/
def restoreNode (key value : Option Bytes) (version height : ℤ) : Option ExportNode :=
  if 127 < height then none
  else
    let height := Int.bmod height (2 ^ 8)
    some ⟨key.getD [], if height = 0 then some (value.getD []) else value, version, height⟩

/-- Add the items up to the end or to an extension. -/
def restoreItems (sha256 : Bytes → Bytes) : List (SnapshotItem N) → MultiTreeImporter N → Option (MultiTreeImporter N)
  | [], m => some m
  | .store name :: items, m => (m.add sha256 (.tree name)).bind (restoreItems sha256 items)
  | .iavl key value version height :: items, m => do
    let node ← restoreNode key value version height
    let m ← m.add sha256 (.node node)
    restoreItems sha256 items m
  | .extension :: _, m => some m

/-- A closed directory and what was left in temporary directories, by height. -/
structure StoreDir (N : Type) (W : WalLog (WALEntry N)) where
  disk : Disk N W
  tmpDirs : List (ℕ × List (N × Persist.Files))

def restore (sha256 : Bytes → Bytes) (height : ℕ) (items : List (SnapshotItem N)) (mounts : List N)
    (dir : StoreDir N W) : Option (Store N W) := do
  let m ← newMultiTreeImporter height (lookupPair height dir.tmpDirs)
  let m ← restoreItems sha256 items m
  let snapshot ← m.finalize sha256
  let disk ← publishImport height snapshot dir.disk
  load sha256 0 mounts .none (clearSnapshotsBefore height disk)

/-! ### Streams of trees -/

def wireBytes (b : Bytes) : Option Bytes := if b = [] then none else some b

def wireItem (n : ExportNode) : SnapshotItem N := .iavl (wireBytes n.key) (n.value.bind wireBytes) n.version n.height

/-- The stream of some trees. -/
def snapshotItems (roots : List (N × Option (Node Bytes Bytes))) : List (SnapshotItem N) :=
  roots.flatMap fun r => .store r.1 :: (treeNodes r.2).map wireItem

theorem getD_wireBytes (b : Bytes) : (wireBytes b).getD [] = b := by
  unfold wireBytes
  split_ifs with h
  · exact h.symm
  · rfl

theorem shape_of_mem_exportNodes {t : Node Bytes Bytes} (hb : t.Balanced) (ht : t.height < 128) :
    ∀ n ∈ exportNodes t, n.height = 0 ∧ n.value.isSome ∨ 0 < n.height ∧ n.height ≤ 127 ∧ n.value = none := by
  induction t with
  | leaf v k x => simp [exportNodes]
  | branch h sz v k l r ihl ihr =>
    obtain ⟨hh, -, -, -, hbl, hbr⟩ := hb
    rw [Node.height_branch] at ht
    intro n hn
    simp only [exportNodes, List.mem_append, List.mem_singleton] at hn
    rcases hn with (hn | hn) | rfl
    · exact ihl hbl (by omega) n hn
    · exact ihr hbr (by omega) n hn
    · refine .inr ⟨?_, ?_, rfl⟩ <;> simp only [int8_of_lt ht] <;> omega

/-- The nodes of a tree are restored as they were. -/
theorem restoreNode_wireItem {n : ExportNode}
    (h : n.height = 0 ∧ n.value.isSome ∨ 0 < n.height ∧ n.height ≤ 127 ∧ n.value = none) :
    restoreNode (wireBytes n.key) (n.value.bind wireBytes) n.version n.height = some n := by
  obtain ⟨key, value, version, height⟩ := n
  dsimp only at h ⊢
  have hbmod : Int.bmod height 256 = height := Int.bmod_eq_of_le (by omega) (by omega)
  rcases h with ⟨rfl, hvalue⟩ | ⟨hpos, hle, rfl⟩
  · obtain ⟨x, rfl⟩ := Option.isSome_iff_exists.mp hvalue
    simp [restoreNode, getD_wireBytes]
  · simp [restoreNode, hbmod, getD_wireBytes, not_lt.mpr hle, hpos.ne']

variable {sha256 : Bytes → Bytes} {roots : List (N × Option (Node Bytes Bytes))} {n : ℕ}

theorem restoreItems_nodes {nodes : List ExportNode}
    (h : ∀ n ∈ nodes, n.height = 0 ∧ n.value.isSome ∨ 0 < n.height ∧ n.height ≤ 127 ∧ n.value = none)
    (items : List (SnapshotItem N)) (m : MultiTreeImporter N) :
    restoreItems sha256 (nodes.map wireItem ++ items) m =
      (m.addAll sha256 (nodes.map .node)).bind (restoreItems sha256 items) := by
  induction nodes generalizing m with
  | nil => rfl
  | cons n nodes ih =>
    have hn := restoreNode_wireItem (h n (by simp))
    rw [List.map_cons, List.cons_append, wireItem, restoreItems, hn, List.map_cons, MultiTreeImporter.addAll]
    simp only [Option.bind_eq_bind, Option.bind_some, Option.bind_assoc]
    exact Option.bind_congr fun m _ => ih (fun n hn => h n (by simp [hn])) m

/-- The stream of trees is imported as their items. -/
theorem restoreItems_snapshotItems (hroots : ∀ r ∈ roots, Storable n r.2) {tail : List (SnapshotItem N)}
    (htail : tail = [] ∨ ∃ rest, tail = .extension :: rest) (m : MultiTreeImporter N) :
    restoreItems sha256 (snapshotItems roots ++ tail) m = m.addAll sha256 (syncItems roots) := by
  have hend : ∀ m : MultiTreeImporter N, restoreItems sha256 tail m = some m := by
    rcases htail with rfl | ⟨rest, rfl⟩ <;> exact fun _ => rfl
  induction roots generalizing m with
  | nil => exact hend m
  | cons r roots ih =>
    have hnodes : ∀ n ∈ treeNodes r.2,
        n.height = 0 ∧ n.value.isSome ∨ 0 < n.height ∧ n.height ≤ 127 ∧ n.value = none := by
      rcases hr : r.2 with _ | u
      · simp [treeNodes]
      · have hstorable := hroots r (by simp)
        rw [hr] at hstorable
        have hlen := hstorable.length_lt u rfl
        rw [← (hstorable.inv u rfl).balanced.size_eq] at hlen
        exact shape_of_mem_exportNodes (hstorable.inv u rfl).balanced
          ((Persist.height_lt_of_size_lt (hstorable.inv u rfl).balanced hlen).trans (by decide))
    have hrest : ∀ m : MultiTreeImporter N, restoreItems sha256 (snapshotItems roots ++ tail) m = _ :=
      ih fun r hr => hroots r (by simp [hr])
    rw [snapshotItems, List.flatMap_cons, List.append_assoc, List.cons_append, restoreItems, syncItems,
      List.flatMap_cons, treeItems, List.cons_append, MultiTreeImporter.addAll]
    refine Option.bind_congr fun m _ => ?_
    rw [restoreItems_nodes hnodes, MultiTreeImporter.addAll_append]
    exact Option.bind_congr fun m _ => hrest m

/-! ### What is loaded -/

variable {height : ℕ} {mounts : List N} {dir : StoreDir N W} {s : Store N W} {tail : List (SnapshotItem N)}

/-- A restore imports the trees, replays the log over them and adds the mounted stores at version zero. -/
theorem restore_eq_some (hroots : ∀ r ∈ roots, Storable n r.2) (htail : tail = [] ∨ ∃ rest, tail = .extension :: rest)
    (h : restore sha256 height (snapshotItems roots ++ tail) mounts dir = some s) :
    ∃ snapshot t₀ t working, importItems sha256 height (lookupPair height dir.tmpDirs) (syncItems roots) = some snapshot ∧
      loadMultiTree snapshot = some t₀ ∧ t₀.catchupWAL sha256 W dir.disk.wal 0 = some t ∧
      initialWorking (sortNames mounts) t = (working, none) ∧ (∀ name ∈ mounts, name ∈ working.mtree.names) ∧
      s.world.db = some (newDB working snapshot.commitInfo.version) ∧ s.world.disk.wal = dir.disk.wal ∧
      s.stores = mounts.map (·, []) := by
  simp only [restore, Option.bind_eq_bind, Option.bind_eq_some_iff, restoreItems_snapshotItems hroots htail] at h
  obtain ⟨m, hm, m', hm', snapshot, hfinal, disk, hpublish, hload⟩ := h
  have himport : importItems sha256 height (lookupPair height dir.tmpDirs) (syncItems roots) = some snapshot := by
    simp only [importItems, Option.bind_eq_bind, hm, hm', Option.bind_some, hfinal]
  unfold publishImport at hpublish
  split_ifs at hpublish with hfree
  obtain rfl := Option.some.inj hpublish
  simp only [not_or, Option.not_isSome_iff_eq_none] at hfree
  obtain ⟨disk', db, working, -, hlv, hup, hnames, rfl⟩ := load_eq_some hload
  rw [loadVersion_zero] at hlv
  obtain ⟨snapshot', t₀, t, d, hlookup, ht₀, ht, hinitial, heq⟩ := Db.load_eq_some hlv
  cases heq
  obtain rfl : d = working := (Prod.mk.inj ((Working.applyUpgrades_nil d).symm.trans hup)).1
  have hsnapshot : snapshot' = snapshot := by
    have hfilter := lookupPair_filter (p := fun k => decide (height ≤ k)) (k := height) (by simp)
      (dir.disk.snapshots ++ [(height, snapshot)])
    have hcurrent : lookupPair height (clearSnapshotsBefore height
        { dir.disk with snapshots := dir.disk.snapshots ++ [(height, snapshot)], current := height }).snapshots =
          some snapshot' := hlookup
    rw [clearSnapshotsBefore, hfilter, lookupPair_append, hfree.1] at hcurrent
    simpa [lookupPair_cons] using hcurrent.symm
  subst hsnapshot
  exact ⟨snapshot', t₀, t, d, himport, ht₀, ht, hinitial, hnames, rfl, rfl, rfl⟩

/-! ### The next commit -/

/-- What a flush leaves of a coherent multitree that has every mounted store. -/
theorem exists_flush {db : DB N} {stores : List (N × ChangeSet)} (hc : db.working.mtree.Coherent)
    (hstores : ∀ w ∈ stores, w.1 ∈ db.working.mtree.names) :
    ∃ working f, flush db stores = some { db with working := working } ∧
      working.mtree = db.working.mtree.applyAll f := by
  have hnames : ∀ c ∈ popChangeSets stores, c.name ∈ db.working.mtree.names := by
    intro c hcs
    have hmem := (List.mem_insertionSort _).mp hcs
    simp only [List.mem_map, List.mem_filter] at hmem
    obtain ⟨w, ⟨hw, -⟩, rfl⟩ := hmem
    exact hstores w hw
  have hmtree := Working.mtree_applyChangeSets (popChangeSets_ne_nil stores) db.working
  rw [hc.applyChangeSets hnames] at hmtree
  obtain ⟨ht, herr⟩ := Prod.mk.inj hmtree
  refine ⟨(db.working.applyChangeSets (popChangeSets stores)).1, _, ?_, ht⟩
  rcases ha : db.working.applyChangeSets (popChangeSets stores) with ⟨working, err⟩
  rw [ha] at herr
  obtain rfl : err = none := herr
  simp only [flush, ha]

/-- A commit that ends at once. -/
theorem step_commit {sha256 : Bytes → Bytes} {opts : Options} {iv k : ℕ} {disk : Disk N W} {db db₁ : DB N}
    {stores : List (N × ChangeSet)} (hflush : flush db stores = some db₁) (hready : Ready opts iv k disk db₁)
    (hiv : 0 < iv) (hle : iv + k ≤ maxInt64) {t : MultiTree N}
    (hsave : db₁.working.mtree.saveVersion sha256 true = .ok t) :
    ∃ s' info, step sha256 opts ⟨⟨disk, some db⟩, stores⟩ (.commit, [.finish]) = some (s', some info) ∧
      info.version = iv + k := by
  obtain ⟨hversion, disk', db', hcommit, hwork, hphase, hwriter, hrewrite, -⟩ := hready.exists_commit hiv hle hsave
  obtain ⟨db₂, hfinish, hwork₂, hphase₂, -⟩ := exists_finish opts hphase hwriter hrewrite
  refine ⟨⟨⟨disk', some db₂⟩, clearStores stores⟩, db₂.working.mtree.lastCommitInfo, ?_, ?_⟩
  · simp [step, call, hflush, hcommit, background, isBackground, Db.step, hfinish, isIdle_of_idle hphase₂ disk']
  · rw [hwork₂, hwork]
    exact hversion

/-- The commit after the height. -/
theorem step_commit_importedTree {sha256 : Bytes → Bytes} {opts : Options} {world : World N W} {v : ℕ}
    {stores : List (N × ChangeSet)} (hnd : (roots.map Prod.fst).Nodup) (hh : height < maxInt64)
    (hlast : W.lastIndex world.disk.wal = 0)
    (hdb : world.db = some (newDB ⟨importedTree sha256 height roots, emptyEntry⟩ v))
    (hstores : ∀ w ∈ stores, w.1 ∈ (importedTree sha256 height roots).names) :
    ∃ s' info, step sha256 opts ⟨world, stores⟩ (.commit, [.finish]) = some (s', some info) ∧
      info.version = height + 1 := by
  obtain ⟨disk, _⟩ := world
  obtain rfl : _ = some _ := hdb
  have hcoherent : (newDB ⟨importedTree sha256 height roots, emptyEntry⟩ v).working.mtree.Coherent :=
    coherent_importedTree hnd
  obtain ⟨working, f, hflush, hworking⟩ := exists_flush hcoherent hstores
  have hversions : ∀ e ∈ working.mtree.trees, e.tree.version < maxInt64 := by
    rw [hworking]
    intro e he
    obtain ⟨d, hd, rfl⟩ := List.mem_map.mp he
    simpa [version_of_mem_importTrees hd] using hh
  obtain ⟨trees, htrees⟩ := exists_saveTrees hversions
  have hsave : ∃ t, working.mtree.saveVersion sha256 true = .ok t := by
    simp only [MultiTree.saveVersion, htrees]
    exact ⟨_, rfl⟩
  refine step_commit (k := 0) hflush ⟨rfl, rfl, by simp [newDB], ?_, ?_, fun _ => hlast⟩ (by omega) hh
    hsave.choose_spec
  · exact congrArg MultiTree.initialVersion hworking
  · exact congrArg (MultiTree.version · + 1) hworking

/-! ### What a restore leaves -/

/-- The store is at the height with the trees of the stream, and the next commit has the next version. -/
def Restored (sha256 : Bytes → Bytes) (height : ℕ) (roots : List (N × Option (Node Bytes Bytes))) (s : Store N W) :
    Prop :=
  ∃ db, s.world.db = some db ∧ db.working.mtree.version = height ∧ db.working.mtree.trees = importTrees height roots ∧
    db.working.mtree.lastCommitInfo =
      ⟨height, (importTrees height roots).map fun e => ⟨e.name, height, e.tree.rootHash sha256⟩⟩ ∧
    ∀ opts stores, stores.map Prod.fst = s.stores.map Prod.fst →
      ∃ s' info, step sha256 opts ⟨s.world, stores⟩ (.commit, [.finish]) = some (s', some info) ∧
        info.version = height + 1

theorem restored_of_importedTree (hnd : (roots.map Prod.fst).Nodup) (hh : height < maxInt64)
    (hlast : W.lastIndex s.world.disk.wal = 0) {v : ℕ}
    (hdb : s.world.db = some (newDB ⟨importedTree sha256 height roots, emptyEntry⟩ v))
    (hstores : ∀ name ∈ s.stores.map Prod.fst, name ∈ (importedTree sha256 height roots).names) :
    Restored sha256 height roots s := by
  refine ⟨_, hdb, rfl, rfl, rfl, fun opts stores hsame => ?_⟩
  refine step_commit_importedTree hnd hh hlast hdb fun w hw => hstores w.1 ?_
  rw [← hsame]
  exact List.mem_map_of_mem hw

/-- A restore that succeeds leaves what the stream describes exactly when the log is empty, no other tree was left
in the temporary directory, and no store is added at height zero. -/
theorem restore_restored_iff (hsha : ∀ b, (sha256 b).length = sizeHash) (hroots : ∀ r ∈ roots, Storable n r.2)
    (hn : n < 2 ^ 63) (hnd : (roots.map Prod.fst).Nodup) (htail : tail = [] ∨ ∃ rest, tail = .extension :: rest)
    (htmp : ∀ tmp ∈ lookupPair height dir.tmpDirs, Sorted tmp) (hlog : W.lastIndex dir.disk.wal < 2 ^ 64)
    (h : restore sha256 height (snapshotItems roots ++ tail) mounts dir = some s) :
    Restored sha256 height roots s ↔ W.lastIndex dir.disk.wal = 0 ∧
      (∀ tmp ∈ lookupPair height dir.tmpDirs, ∀ p ∈ tmp, p.1 ∈ roots.map Prod.fst) ∧ (0 < height ∨ mounts = []) := by
  obtain ⟨snapshot, t₀, t, working, himport, ht₀, hcatchup, hinitial, hnames, hdb, hwal, hstores⟩ :=
    restore_eq_some hroots htail h
  obtain ⟨hversion, hinitialVersion, -⟩ := fields_importItems hroots hn himport
  obtain ⟨hv₀, hi₀⟩ := loadMultiTree_fields ht₀
  rw [hversion] at hv₀
  rw [hinitialVersion] at hi₀
  obtain ⟨hperm₀, hle⟩ := names_loadMultiTree_perm ht₀
  have hh : height < maxInt64 := by
    rw [hinitialVersion] at hle
    exact hle
  have hempty : W.lastIndex dir.disk.wal = 0 → t = t₀ := fun hlast =>
    Option.some.inj (hcatchup.symm.trans (catchupWAL_of_le sha256 W 0 (nextIndex_height hh hv₀ hi₀) hlast.le))
  have hclean (hsub : ∀ tmp ∈ lookupPair height dir.tmpDirs, ∀ p ∈ tmp, p.1 ∈ roots.map Prod.fst) :
      t₀ = importedTree sha256 height roots := by
    obtain rfl := importItems_eq_importDir hsha hroots hn hnd htmp hsub himport
    exact Option.some.inj (ht₀.symm.trans (loadMultiTree_importDir hnd hh))
  constructor
  · rintro ⟨db, hdb', hv, htrees, -, -⟩
    obtain rfl := Option.some.inj (hdb.symm.trans hdb')
    have hlast : W.lastIndex dir.disk.wal = 0 := by
      by_contra hne
      have hworking := version_initialWorking (sortNames mounts) t
      rw [hinitial] at hworking
      exact version_catchupWAL_ne hh hv₀ hi₀ (Nat.pos_of_ne_zero hne) hlog hcatchup (hworking.symm.trans hv)
    obtain rfl := hempty hlast
    obtain ⟨added, hperm, hlength⟩ := perm_initialWorking hinitial
    rw [show working.mtree.trees = importTrees height roots from htrees] at hperm
    have hsub : ∀ tmp ∈ lookupPair height dir.tmpDirs, ∀ p ∈ tmp, p.1 ∈ roots.map Prod.fst := by
      intro tmp hmem p hp
      have hloaded := hperm₀.mem_iff.mpr (mem_names_of_stale hroots hn hnd himport hmem hp)
      have hall := (hperm.map NamedTree.name).mem_iff.mpr (by
        rw [List.map_append]
        exact List.mem_append_left _ hloaded)
      exact (names_importTrees_perm height roots).mem_iff.mp hall
    refine ⟨hlast, hsub, ?_⟩
    rcases Nat.eq_zero_or_pos height with rfl | hpos
    · right
      have hcount := hperm.length_eq
      have hloaded : t.trees = importTrees 0 roots := congrArg MultiTree.trees (hclean hsub)
      have hsorted : (sortNames mounts).length = mounts.length := List.length_insertionSort _ _
      rw [hloaded, List.length_append, hlength, if_pos hv₀, hsorted] at hcount
      exact List.eq_nil_of_length_eq_zero (by omega)
    · exact .inl hpos
  · rintro ⟨hlast, hsub, hheight⟩
    obtain rfl := hempty hlast
    obtain rfl := hclean hsub
    have hworking : initialWorking (sortNames mounts) (importedTree sha256 height roots) =
        (⟨importedTree sha256 height roots, emptyEntry⟩, none) := by
      rcases hheight with hpos | rfl
      · exact initialWorking_of_pos (hv₀.symm ▸ hpos) _
      · exact if_neg fun hc => hc.2 rfl
    obtain rfl : _ = working := (Prod.mk.inj (hworking.symm.trans hinitial)).1
    refine restored_of_importedTree hnd hh (hwal.symm ▸ hlast) hdb fun name hname => hnames name ?_
    rw [hstores, List.map_map] at hname
    simpa using hname

/-- A tree with three leaves and an empty one are restored into an empty directory. -/
theorem restore_restored_twoTrees :
    let sha256 : Bytes → Bytes := fun _ => List.replicate 32 0
    let roots : List (ℕ × Option (Node Bytes Bytes)) := [(0, some Persist.threeLeaves), (1, none)]
    let dir : StoreDir ℕ (listLog (WALEntry ℕ)) := ⟨⟨[], 0, none, WalLog.new _⟩, []⟩
    ∃ s, restore sha256 5 (snapshotItems roots ++ [.extension]) [0, 1] dir = some s ∧ Restored sha256 5 roots s := by
  intro sha256 roots dir
  have hsome : (restore sha256 5 (snapshotItems roots ++ [.extension]) [0, 1] dir).isSome = true := by decide +kernel
  obtain ⟨s, hs⟩ := Option.isSome_iff_exists.mp hsome
  have hstorable : ∀ r ∈ roots, Storable 5 r.2 := by
    simp only [roots, List.mem_cons, List.not_mem_nil, or_false]
    rintro r (rfl | rfl)
    · refine ⟨fun u hu => ?_, fun u hu => ?_, fun u hu => ?_⟩ <;> cases hu
      · exact Persist.threeLeaves_inv
      · simp [Persist.Fits, Persist.threeLeaves, Node.toList]
      · decide
    · exact ⟨by simp, by simp, by simp⟩
  exact ⟨s, hs, (restore_restored_iff (fun _ => rfl) hstorable (by decide) (by decide) (.inr ⟨[], rfl⟩)
    (by simp [dir]) (by decide) hs).mpr ⟨rfl, by simp [dir], .inl (by decide)⟩⟩

/-- A block and the end of the process. -/
def lastBlock : List (Call ℕ × List (Event ℕ)) := [(.set 0 [1] (some [2]), []), (.commit, [.finish]), (.close, [])]

/-- A store is restored at version five and commits version six. A restore at version ten then replays that
commit and is at version eleven. -/
theorem restore_replays_log :
    let sha256 : Bytes → Bytes := fun _ => List.replicate 32 0
    let roots : List (ℕ × Option (Node Bytes Bytes)) := [(0, some Persist.threeLeaves)]
    let empty : StoreDir ℕ (listLog (WALEntry ℕ)) := ⟨⟨[], 0, none, WalLog.new _⟩, []⟩
    ∃ first closed os s db, restore sha256 5 (snapshotItems roots) [0] empty = some first ∧
      exec (step sha256 ⟨10, 0, false⟩) first lastBlock = some (closed, os) ∧
      restore sha256 10 (snapshotItems roots) [0] ⟨closed.world.disk, []⟩ = some s ∧
      s.world.db = some db ∧ db.working.mtree.version = 11 ∧ ¬ Restored sha256 10 roots s := by
  intro sha256 roots empty
  have hversion : (do
      let first ← restore sha256 5 (snapshotItems roots) [0] empty
      let r ← exec (step sha256 ⟨10, 0, false⟩) first lastBlock
      let s ← restore sha256 10 (snapshotItems roots) [0] ⟨r.1.world.disk, []⟩
      s.world.db.map fun db => db.working.mtree.version) = some 11 := by decide +kernel
  simp only [Option.bind_eq_bind, Option.bind_eq_some_iff, Option.map_eq_some_iff] at hversion
  obtain ⟨first, hfirst, ⟨closed, os⟩, hrun, s, hs, db, hdb, hv⟩ := hversion
  refine ⟨first, closed, os, s, db, hfirst, hrun, hs, hdb, hv, ?_⟩
  rintro ⟨db', hdb', hv', -⟩
  obtain rfl := Option.some.inj (hdb.symm.trans hdb')
  exact absurd (hv.symm.trans hv') (by decide)

end IavlStore.Rootmulti
