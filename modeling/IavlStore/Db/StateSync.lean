import IavlStore.Db.Calls
import IavlStore.Db.Import
import IavlStore.Db.Runs
import IavlStore.Multi.StateSync

/-! A database from the stream of another one. The trees of a committed multitree are exported, imported into
a directory without snapshots and log, and loaded. The initial version of the new database is the one after
the height, so that the first entry of its log leads there; with this exception the multitree is that of
the old database. From then on the same calls give the same commit infos on both sides, with any steps of
the other threads in between that leave the trees as they are. -/

namespace IavlStore.Db

open IavlStore.Base.Encoding IavlStore.Base.SortedPairs IavlStore.Base.Runs IavlStore.Tree IavlStore.Multi
open IavlStore.Persist (sizeHash maxFileSize kvsSize SnapshotTree)

variable {N : Type} [LinearOrder N] {W : WalLog (WALEntry N)} {sha256 : Bytes → Bytes}
  {roots : List (N × Option (Node Bytes Bytes))} {n height : ℕ}

/-! ### The imported directory -/

/-- The directory gets its name and the `current` link is moved to it. -/
def publishImport (height : ℕ) (dir : SnapshotDir N) (disk : Disk N W) : Option (Disk N W) :=
  if (lookupPair height disk.snapshots).isSome ∨ disk.currentTmp.isSome then none
  else some { disk with snapshots := disk.snapshots ++ [(height, dir)], current := height }

/-- Trees that were left under the names of the stream are replaced. -/
theorem updateMetadataFile_written (hsha : ∀ b, (sha256 b).length = sizeHash) (hroots : ∀ r ∈ roots, Storable n r.2)
    (hn : n < 2 ^ 63) (hh : height ≤ maxInt64) (hw : ∀ r ∈ roots, (writeTree sha256 height r.2).isSome)
    (hnd : (roots.map Prod.fst).Nodup) {stale : List (N × Persist.Files)} (hs : Sorted stale)
    (hsub : ∀ p ∈ stale, p.1 ∈ roots.map Prod.fst) :
    updateMetadataFile sha256 height (insertPairs (roots.map (treeFiles sha256 height)) stale) =
      some (importDir sha256 height roots) := by
  have hperm : (insertPairs roots []).Perm roots := by
    simpa using insertPairs_perm hnd (l := []) (by simp)
  have hsorted : Sorted (insertPairs roots []) := insertPairs_sorted List.Pairwise.nil
  have hkeys : (roots.map (treeFiles sha256 height)).map Prod.fst = roots.map Prod.fst := by
    simp [treeFiles, Function.comp_def]
  have hdir : insertPairs (roots.map (treeFiles sha256 height)) stale =
      (insertPairs roots []).map (treeFiles sha256 height) := by
    refine Sorted.ext (insertPairs_sorted hs) (List.pairwise_map.mpr hsorted) fun k => ?_
    have hfiles : ∀ l : List (N × Option (Node Bytes Bytes)), lookupPair k (l.map (treeFiles sha256 height)) = _ :=
      lookupPair_map (fun root => (writeTree sha256 height root).getD ⟨[], [], [], []⟩) k
    rw [lookupPair_insertPairs (hkeys ▸ hnd), hfiles, hfiles, lookupPair_insertPairs hnd, lookupPair_nil, Option.or_none]
    rcases hk : lookupPair k roots with _ | root
    · rw [lookupPair_eq_none fun p hp heq => ?_]
      · rfl
      · obtain ⟨root, hroot⟩ := exists_lookupPair_of_mem (heq ▸ hsub p hp)
        exact absurd (hk.symm.trans hroot) (by simp)
    · rfl
  have htrees : (insertPairs roots []).map (fun r => (⟨r.1, ⟨height, r.2⟩⟩ : NamedTree N)) = importTrees height roots := by
    have hnames : (((insertPairs roots []).map fun r => (⟨r.1, ⟨height, r.2⟩⟩ : NamedTree N)).map
        NamedTree.name).Nodup := by
      simpa [Function.comp_def] using (hperm.map Prod.fst).nodup_iff.mpr hnd
    rw [importTrees, ← MultiTree.sortTrees_eq_of_perm (hperm.map _) hnames, MultiTree.sortTrees,
      List.Pairwise.insertionSort_eq]
    exact List.pairwise_map.mpr (hsorted.imp fun hlt => hlt.le)
  have hopen := openTrees_treeFiles hsha (fun r hr => hroots r (hperm.mem_iff.mp hr)) (by omega)
    (by unfold maxInt64 at hh; omega) fun r hr => hw r (hperm.mem_iff.mp hr)
  rw [updateMetadataFile, hdir, hopen, htrees]
  simp [importDir, ← htrees]

/-! ### The imported multitree -/

/-- What a commit leaves. -/
structure Committed (sha256 : Bytes → Bytes) (h : ℕ) (t : MultiTree N) : Prop where
  coherent : t.Coherent
  recorded : t.Recorded sha256
  version : t.version = h
  inv : ∀ e ∈ t.trees, ∀ u ∈ e.tree.root, u.Inv e.tree.version

omit [LinearOrder N] in
theorem mem_saveTrees {trees trees' : List (NamedTree N)} (h : MultiTree.saveTrees trees = .ok trees') :
    ∀ e' ∈ trees', ∃ e ∈ trees, e.tree.saveVersion = some e'.tree := by
  induction trees generalizing trees' with
  | nil =>
    cases h
    simp
  | cons e trees ih =>
    rw [MultiTree.saveTrees] at h
    rcases he : e.tree.saveVersion with _ | tree <;> simp only [he, reduceCtorEq] at h
    rcases hr : MultiTree.saveTrees trees with err | rest <;> rw [hr] at h
    · cases h
    · cases h
      intro e' he'
      rcases List.mem_cons.mp he' with rfl | he'
      · exact ⟨e, by simp, he⟩
      · obtain ⟨d, hd, hsave⟩ := ih hr e' he'
        exact ⟨d, by simp [hd], hsave⟩

theorem committed_of_saveVersion {t t' : MultiTree N} (hc : t.Coherent) (hi : ∀ e ∈ t.trees, e.tree.Inv)
    (hs : t.saveVersion sha256 true = .ok t') : Committed sha256 t'.version t' := by
  refine ⟨hc.saveVersion hs, MultiTree.recorded_saveVersion sha256 hs, rfl, ?_⟩
  obtain ⟨trees, htrees, rfl⟩ := MultiTree.saveVersion_eq_ok hs
  intro e he
  obtain ⟨d, hd, hsave⟩ := mem_saveTrees htrees e he
  exact ((hi d hd).saveVersion hsave).2

section
variable {h : ℕ} {t : MultiTree N}

def exportedRoots (t : MultiTree N) : List (N × Option (Node Bytes Bytes)) := t.trees.map fun e => (e.name, e.tree.root)

/-- The imported directory is a snapshot of the multitree with another initial version. -/
theorem Committed.importDir_eq (hc : Committed sha256 h t) (hlevel : ∀ e ∈ t.trees, e.tree.version = h) :
    importDir sha256 h (exportedRoots t) = (renumber (h + 1) t).writeSnapshot := by
  have htree : ∀ e ∈ t.trees, (⟨e.name, ⟨h, e.tree.root⟩⟩ : NamedTree N) = e := by
    intro e he
    rw [← hlevel e he]
  have htrees : importTrees h (exportedRoots t) = t.trees := by
    rw [importTrees, exportedRoots, List.map_map, ← hc.coherent.sortTrees]
    congr 1
    rw [hc.coherent.sortTrees]
    exact (List.map_congr_left htree).trans (List.map_id _)
  have hinfo : t.lastCommitInfo = ⟨h, t.trees.map fun e => ⟨e.name, h, e.tree.rootHash sha256⟩⟩ := by
    rw [hc.recorded, MultiTree.buildCommitInfo, hc.version]
    congr 1
    exact List.map_congr_left fun e he => by rw [hlevel e he]
  rw [importDir, htrees, MultiTree.writeSnapshot, renumber, hinfo]

/-- The items of the trees are imported into a new directory. -/
theorem Committed.importItems_eq (hc : Committed sha256 h t) (hsha : ∀ b, (sha256 b).length = sizeHash)
    (hh : h < maxInt64) (hne : t.trees ≠ []) (hlevel : ∀ e ∈ t.trees, e.tree.version = h)
    (hsize : ∀ e ∈ t.trees, ∀ u ∈ e.tree.root,
      Persist.Fits u ∧ u.toList.length < 2 ^ 32 ∧ kvsSize u < maxFileSize) :
    importItems sha256 h none (syncItems (exportedRoots t)) = some (renumber (h + 1) t).writeSnapshot := by
  have hstorable : ∀ r ∈ exportedRoots t, Storable h r.2 := by
    intro r hr
    obtain ⟨e, he, rfl⟩ := List.mem_map.mp hr
    exact ⟨fun u hu => hlevel e he ▸ hc.inv e he u hu, fun u hu => (hsize e he u hu).1,
      fun u hu => (hsize e he u hu).2.1⟩
  have hwrite : ∀ r ∈ exportedRoots t, (writeTree sha256 h r.2).isSome := by
    intro r hr
    obtain ⟨f, hf⟩ := (hstorable r hr).exists_writeTree hsha fun u hu => by
      obtain ⟨e, he, rfl⟩ := List.mem_map.mp hr
      exact (hsize e he u hu).2.2
    exact Option.isSome_of_eq_some hf
  have hnames : ((exportedRoots t).map Prod.fst).Nodup := by
    simpa [exportedRoots, Function.comp_def, MultiTree.names] using hc.coherent.nodup
  have hlt : h < 2 ^ 63 := by
    unfold maxInt64 at hh
    omega
  refine (importItems_eq_some_iff hstorable hlt).mpr ⟨hh.le, hwrite, ?_⟩
  obtain ⟨r, roots, hroots⟩ : ∃ r roots, exportedRoots t = r :: roots := by
    rw [← List.ne_nil_iff_exists_cons]
    exact fun hnil => hne (List.map_eq_nil_iff.mp hnil)
  rw [hroots, writtenDir_cons, ← hroots]
  exact ⟨_, rfl, hc.importDir_eq hlevel ▸
    updateMetadataFile_written hsha hstorable hlt hh.le hwrite hnames List.Pairwise.nil (by simp)⟩

theorem Committed.origin (hc : Committed sha256 h t) (hpos : 0 < h) (hh : h < maxInt64)
    (hlevel : ∀ e ∈ t.trees, e.tree.version = h) : Origin (renumber (h + 1) t) where
  loadable := ⟨⟨hc.coherent.sorted, hc.coherent.index⟩, hc.version ▸ hh.le, hh, .inr fun e he => hlevel e he ▸ hpos⟩
  level := fun e he => by
    have hv : (renumber (h + 1) t).version = h := hc.version
    rw [hv, nextVersion_of_pos hpos, next_eq hh.le, hlevel e he]
  start := .inr ⟨hc.version.symm ▸ hpos, by rw [← hc.version]; rfl⟩

variable (W sha256) in
/-- A directory that was begun at a version is loaded as it is. -/
theorem Origin.load {base : MultiTree N} (hb : Origin base) (hpos : 0 < base.version) (stores : List N) :
    Db.load sha256 stores (freshDisk W base) =
      some ⟨freshDisk W base, some (newDB ⟨base, emptyEntry⟩ base.version)⟩ := by
  have hbase := hb.loadable.loadMultiTree_writeSnapshot
  have hiv : base.version + 1 = base.initialVersion := by
    rcases hb.start with hempty | hstart
    · rw [hempty] at hpos
      exact absurd hpos (lt_irrefl 0)
    · exact hstart.2
  have hle := hb.loadable.version_le
  have hindex : NextIndex base 1 := by
    unfold maxInt64 at hle
    rw [NextIndex, nextVersion_of_pos hpos, next_eq hb.loadable.version_le, hiv, walIndex]
    split_ifs <;> omega
  have hlast : W.lastIndex W.new = 0 := by
    rw [W.lastIndex_eq, W.new_eq.1, W.new_eq.2]
    rfl
  have hcatchup := catchupWAL_of_le sha256 W 0 hindex hlast.le
  have hinitial : initialWorking stores base = (⟨base, emptyEntry⟩, none) := if_neg fun h => hpos.ne' h.1
  simp only [Db.load, freshDisk, lookupPair_cons, if_pos, Option.bind_eq_bind, Option.bind_some, hbase, hcatchup, hinitial]
  rfl

end

/-! ### The same calls on both sides -/

/-- A run of the database makes these calls and commits these infos. -/
def Commits (sha256 : Bytes → Bytes) (opts : Options) (s : World N W) (calls : List (DBCall N))
    (infos : List (CommitInfo N)) : Prop :=
  ∃ es r, Along (step sha256 opts) (Quiet sha256 opts) s es ∧ es.filterMap Event.call = calls ∧
    exec (step sha256 opts) s es = some r ∧ r.2.filterMap Reply.info = infos

variable {opts : Options} {calls : List (DBCall N)} {infos : List (CommitInfo N)}

theorem Commits.answers {s : World N W} {db : DB N} (h : Commits sha256 opts s calls infos) (hdb : s.db = some db) :
    ∃ d answers, exec (callStep sha256) db.working calls = some (d, answers) ∧
      infos = answers.filterMap DBAnswer.info := by
  obtain ⟨es, ⟨s', os⟩, ha, rfl, he, rfl⟩ := h
  exact exec_calls hdb ha he

/-- The calls go on in the database that was begun after the version. -/
theorem Commits.imported {V : WalLog (WALEntry N)} {s : World N V} {source : DB N} {h : ℕ} {t : MultiTree N}
    (hcommits : Commits sha256 opts s calls infos) (hs : s.db = some source) (hsource : source.working = ⟨t, emptyEntry⟩)
    (hversion : t.version = h) (hpos : 0 < h) (hle : h + calls.countP DBCall.isCommit ≤ maxInt64) (v : ℕ)
    (opts' : Options) :
    let target : World N W := ⟨freshDisk W (renumber (h + 1) t), some (newDB ⟨renumber (h + 1) t, emptyEntry⟩ v)⟩
    Commits sha256 opts' target calls infos ∧
      ∀ infos', Commits sha256 opts' target calls infos' → infos' = infos := by
  intro target
  obtain ⟨d, answers, hcalls, rfl⟩ := hcommits.answers hs
  rw [hsource] at hcalls
  have hrun : exec (callStep sha256) (Working.renumber (h + 1) ⟨t, emptyEntry⟩) calls = some (d.renumber (h + 1), answers) := by
    rw [exec_renumber (h + 1) (hversion ▸ hpos) (hversion ▸ hle), hcalls, Option.map_some]
  have hsame : ∀ infos', Commits sha256 opts' target calls infos' → infos' = answers.filterMap DBAnswer.info := by
    intro infos' hinfos'
    obtain ⟨d', answers', hcalls', rfl⟩ := hinfos'.answers rfl
    cases hrun.symm.trans hcalls'
    rfl
  have hready : Ready opts' (h + 1) 0 target.disk (newDB ⟨renumber (h + 1) t, emptyEntry⟩ v) := by
    refine ⟨rfl, rfl, (fun r hr => nomatch hr), rfl, congrArg (· + 1) hversion, fun _ => ?_⟩
    rw [W.lastIndex_eq]
    simp [target, freshDisk, W.new_eq]
  obtain ⟨s', os, hevents⟩ := hready.exec_events (by omega) (by omega) hrun
  have htarget : Commits sha256 opts' target calls (os.filterMap Reply.info) :=
    ⟨_, _, along_events target calls, calls_events calls, hevents, rfl⟩
  exact ⟨hsame _ htarget ▸ htarget, hsame⟩

/-- What is exported at a version, imported and loaded is at that version with the same commit info, and every
run of the one database from there on is matched by the other with the same commit infos. -/
theorem stateSync_preserves (hsha : ∀ b, (sha256 b).length = sizeHash) {h : ℕ} {t : MultiTree N}
    (hc : Committed sha256 h t) (hpos : 0 < h) (hh : h < maxInt64) (hne : t.trees ≠ [])
    (hlevel : ∀ e ∈ t.trees, e.tree.version = h)
    (hsize : ∀ e ∈ t.trees, ∀ u ∈ e.tree.root,
      Persist.Fits u ∧ u.toList.length < 2 ^ 32 ∧ kvsSize u < maxFileSize)
    {exported : List (N × SnapshotTree)}
    (hexported : List.Forall₂ (fun T e => T.1 = e.name ∧ Persist.Holds sha256 T.2 e.tree.root false) exported t.trees)
    (W : WalLog (WALEntry N)) (stores : List N) :
    ∃ items dir disk db,
      (∃ enough, ∀ fuel, enough ≤ fuel → MultiTreeExporter.drain fuel fuel ⟨exported, 0, none⟩ = some items) ∧
      importItems sha256 h none items = some dir ∧ publishImport h dir ⟨[], 0, none, W.new⟩ = some disk ∧
      load sha256 stores disk = some ⟨disk, some db⟩ ∧
      db.working.mtree.version = h ∧ db.working.mtree.lastCommitInfo = t.lastCommitInfo ∧
      ∀ (V : WalLog (WALEntry N)) (s : World N V) (source : DB N) (opts opts' : Options) calls infos,
        s.db = some source → source.working = ⟨t, emptyEntry⟩ → h + calls.countP DBCall.isCommit ≤ maxInt64 →
        Commits sha256 opts s calls infos →
          Commits sha256 opts' ⟨disk, some db⟩ calls infos ∧
          ∀ infos', Commits sha256 opts' ⟨disk, some db⟩ calls infos' → infos' = infos := by
  have hdir := hc.importItems_eq hsha hh hne hlevel hsize
  have hbase := hc.origin hpos hh hlevel
  have hversion : (renumber (h + 1) t).version = h := hc.version
  have hload := hbase.load W sha256 (hversion.symm ▸ hpos) stores
  have hitems : List.Forall₂ (fun T r => T.1 = r.1 ∧ Persist.Holds sha256 T.2 r.2 false) exported (exportedRoots t) := by
    rw [exportedRoots, List.forall₂_map_right_iff]
    exact hexported
  refine ⟨_, _, freshDisk W (renumber (h + 1) t), _, exists_drain hsha hitems, hdir, ?_, hload, hversion, rfl, ?_⟩
  · simp [publishImport, freshDisk, hversion]
  · intro V s source opts opts' calls infos hs hsource hle hcommits
    exact hcommits.imported hs hsource hc.version hpos hle _ opts'

/-- A tree with three leaves and an empty one, committed at version five. -/
def twoTrees (sha256 : Bytes → Bytes) : MultiTree ℕ :=
  (⟨0, [⟨0, ⟨5, some Persist.threeLeaves⟩⟩, ⟨1, ⟨5, none⟩⟩], [(0, 0), (1, 1)], ⟨5, []⟩⟩ : MultiTree ℕ).updateCommitInfo sha256

def setThenCommit : List (DBCall ℕ) := [.applyChangeSets [⟨1, [⟨false, [4], some [9]⟩]⟩], .commit]

theorem stateSync_preserves_twoTrees :
    let sha256 : Bytes → Bytes := fun _ => List.replicate 32 0
    let W := listLog (WALEntry ℕ)
    let source : World ℕ W := ⟨⟨[], 0, none, W.new⟩, some (newDB ⟨twoTrees sha256, emptyEntry⟩ 5)⟩
    ∃ items dir disk db info, importItems sha256 5 none items = some dir ∧
      publishImport 5 dir ⟨[], 0, none, W.new⟩ = some disk ∧ load sha256 [0, 1] disk = some ⟨disk, some db⟩ ∧
      Commits sha256 ⟨10, 0, true⟩ source setThenCommit [info] ∧
      Commits sha256 ⟨10, 0, false⟩ ⟨disk, some db⟩ setThenCommit [info] := by
  intro sha256 W source
  have hc : Committed sha256 5 (twoTrees sha256) := by
    refine ⟨⟨by decide, by decide⟩, rfl, rfl, ?_⟩
    simp only [twoTrees, MultiTree.updateCommitInfo, List.mem_cons, List.not_mem_nil, or_false]
    rintro e (rfl | rfl) u hu <;> cases hu
    exact Persist.threeLeaves_inv
  have hsize : ∀ e ∈ (twoTrees sha256).trees, ∀ u ∈ e.tree.root,
      Persist.Fits u ∧ u.toList.length < 2 ^ 32 ∧ kvsSize u < maxFileSize := by
    simp only [twoTrees, MultiTree.updateCommitInfo, List.mem_cons, List.not_mem_nil, or_false]
    rintro e (rfl | rfl) u hu <;> cases hu
    exact ⟨by simp [Persist.Fits, Persist.threeLeaves, Node.toList], by decide, by decide⟩
  have hfirst : Persist.Holds sha256 ⟨5, some (.inMemory Persist.threeLeaves), none⟩ (some Persist.threeLeaves) false :=
    .saveVersion (.change (.newEmptyTree 4) (.some (Persist.reads_inMemory _))) rfl
  have hexported : List.Forall₂ (fun T e => T.1 = e.name ∧ Persist.Holds sha256 T.2 e.tree.root false)
      [(0, ⟨5, some (.inMemory Persist.threeLeaves), none⟩), (1, .newEmptyTree 5)] (twoTrees sha256).trees :=
    .cons ⟨rfl, hfirst⟩ (.cons ⟨rfl, .newEmptyTree 5⟩ .nil)
  obtain ⟨items, dir, disk, db, -, himport, hpublish, hload, -, -, hmatch⟩ :=
    stateSync_preserves (fun _ => rfl) hc (by decide) (by decide) (by simp [twoTrees, MultiTree.updateCommitInfo])
      (by simp [twoTrees, MultiTree.updateCommitInfo]) hsize
      hexported W [0, 1]
  have hsource : Commits sha256 ⟨10, 0, true⟩ source setThenCommit _ :=
    ⟨_, _, along_events source setThenCommit, calls_events setThenCommit, rfl, rfl⟩
  exact ⟨items, dir, disk, db, _, himport, hpublish, hload, hsource,
    (hmatch W source _ ⟨10, 0, true⟩ ⟨10, 0, false⟩ _ _ rfl rfl (by decide) hsource).1⟩

/-- Without a tree there is no temporary directory, and the import fails. -/
theorem import_without_trees_fails :
    let sha256 : Bytes → Bytes := fun _ => List.replicate 32 0
    let t : MultiTree ℕ := ⟨0, [], [], ⟨1, []⟩⟩
    (MultiTree.newEmptyMultiTree 0).saveVersion sha256 true = .ok t ∧ Committed sha256 1 t ∧
      MultiTreeExporter.drain 1 1 (⟨[], 0, none⟩ : MultiTreeExporter ℕ) = some [] ∧
      importItems sha256 1 none ([] : List (SyncItem ℕ)) = none := by
  intro sha256 t
  have hsave : (MultiTree.newEmptyMultiTree 0).saveVersion sha256 true = .ok t := rfl
  exact ⟨hsave, committed_of_saveVersion ⟨List.Pairwise.nil, rfl⟩ (by simp [MultiTree.newEmptyMultiTree]) hsave, rfl, rfl⟩

end IavlStore.Db
