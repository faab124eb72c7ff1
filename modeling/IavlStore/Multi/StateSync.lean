import IavlStore.Multi.UpgradeOrder
import IavlStore.Persist.Import

/-! State sync. An exporter lists the names of the trees, each followed by its nodes in post-order. An importer
writes every tree of such a stream into the temporary directory of a snapshot, opens what is in that
directory and records the root hashes under the height it was given. The trees that were exported are the
trees that are opened, and a tree that was left in the directory before is opened with them. -/

namespace IavlStore.Persist

open IavlStore.Base.Encoding IavlStore.Tree

/-! ### Opening trees -/

namespace Snapshot

/-- The tree under a node, within a number of levels. -/
def readNode (s : Snapshot) : ℕ → PersistedNode → Option (Node Bytes Bytes)
  | 0, _ => none
  | levels + 1, n =>
    if n.isLeaf then do
      some (.leaf (← n.version s) (← n.key s) ((← n.value s).getD []))
    else do
      let l ← readNode s levels (← n.left s)
      let r ← readNode s levels (← n.right s)
      some (.branch (← n.height s) (← n.size s) (← n.version s) (← n.key s) l r)

def rootHash (sha256 : Bytes → Bytes) (s : Snapshot) : Option Bytes :=
  match s.root with
  | none => some (emptyHash sha256)
  | some n => n.hash s

end Snapshot

/-- A height is a byte. -/
def maxLevels : ℕ := 2 ^ 8

def Files.openTree (f : Files) : Option IavlStore.Tree := do
  let s ← (openSnapshot f).toOption
  match s.root with
  | none => some ⟨s.version, none⟩
  | some n => some ⟨s.version, some (← s.readNode maxLevels n)⟩

end IavlStore.Persist

namespace IavlStore.Multi

open IavlStore.Base.Encoding IavlStore.Base.SortedPairs IavlStore.Persist IavlStore.Tree

variable {N : Type} [LinearOrder N]

/-! ### Exporting -/

/-- The name of a tree, or a node of the tree named last. -/
inductive SyncItem (N : Type) where
  | tree (name : N)
  | node (node : ExportNode)

/-- The trees, the place of the next one and the nodes that are left of the present one. -/
structure MultiTreeExporter (N : Type) where
  trees : List (N × SnapshotTree)
  iTree : ℕ
  exporter : Option (List ExportNode)

/-- The inner `none` is the end. -/
def MultiTreeExporter.next (fuel : ℕ) (e : MultiTreeExporter N) : Option (Option (SyncItem N × MultiTreeExporter N)) :=
  match e.exporter with
  | some (node :: nodes) => some (some (.node node, { e with exporter := some nodes }))
  | _ =>
    match e.trees[e.iTree]? with
    | none => some none
    | some (name, tree) => do
      let nodes ← tree.exportTree fuel
      some (some (.tree name, { e with iTree := e.iTree + 1, exporter := some nodes }))

/-- All items, up to a number of them. -/
def MultiTreeExporter.drain (fuel : ℕ) : ℕ → MultiTreeExporter N → Option (List (SyncItem N))
  | 0, _ => none
  | count + 1, e => do
    match ← e.next fuel with
    | none => some []
    | some (item, e) => some (item :: (← drain fuel count e))

/-! ### Importing -/

/-- The height, the trees that are in the temporary directory, if there is one, and the tree that is being read. -/
structure MultiTreeImporter (N : Type) where
  height : ℕ
  tmpDir : Option (List (N × Files))
  importer : Option (N × List ExportNode)

def newMultiTreeImporter (height : ℕ) (tmpDir : Option (List (N × Files))) : Option (MultiTreeImporter N) :=
  if maxInt64 < height then none else some ⟨height, tmpDir, none⟩

namespace MultiTreeImporter

variable (sha256 : Bytes → Bytes)

/-- Write the tree that is being read; its files replace those of an earlier one. -/
def closeImporter (m : MultiTreeImporter N) : Option (MultiTreeImporter N) :=
  match m.importer with
  | none => some m
  | some (name, nodes) =>
    match doImport sha256 m.height nodes with
    | some (.ok files) => some ⟨m.height, some (insertPair name files (m.tmpDir.getD [])), none⟩
    | _ => none

/-- A node before any name is an access through nil. -/
def add (m : MultiTreeImporter N) : SyncItem N → Option (MultiTreeImporter N)
  | .tree name => do
    let m ← m.closeImporter sha256
    some { m with importer := some (name, []) }
  | .node node => do
    let (name, nodes) ← m.importer
    some { m with importer := some (name, nodes ++ [node]) }

def addAll : List (SyncItem N) → MultiTreeImporter N → Option (MultiTreeImporter N)
  | [], m => some m
  | item :: items, m => (m.add sha256 item).bind (addAll items)

end MultiTreeImporter

/-- Open the trees of a directory in the order of their names. -/
def openTrees (sha256 : Bytes → Bytes) (height : ℕ) :
    List (N × Files) → Option (List (StoreInfo N) × List (NamedTree N))
  | [] => some ([], [])
  | (name, files) :: rest => do
    let s ← (openSnapshot files).toOption
    let hash ← s.rootHash sha256
    let tree ← files.openTree
    let (infos, trees) ← openTrees sha256 height rest
    some (⟨name, height, hash⟩ :: infos, ⟨name, tree⟩ :: trees)

/-- The initial version is that of the first log entry. -/
def updateMetadataFile (sha256 : Bytes → Bytes) (height : ℕ) (tmpDir : List (N × Files)) : Option (SnapshotDir N) := do
  let (storeInfos, trees) ← openTrees sha256 height tmpDir
  some ⟨⟨height, storeInfos⟩, height + 1, trees⟩

/-- The snapshot that is to get its name. Without a directory there is nothing to read. -/
def MultiTreeImporter.finalize (sha256 : Bytes → Bytes) (m : MultiTreeImporter N) : Option (SnapshotDir N) := do
  let m ← m.closeImporter sha256
  updateMetadataFile sha256 m.height (← m.tmpDir)

def importItems (sha256 : Bytes → Bytes) (height : ℕ) (tmpDir : Option (List (N × Files)))
    (items : List (SyncItem N)) : Option (SnapshotDir N) := do
  let m ← newMultiTreeImporter height tmpDir
  (← m.addAll sha256 items).finalize sha256

/-! ### What is written is opened -/

variable {sha256 : Bytes → Bytes} {n height : ℕ} {root : Option (Node Bytes Bytes)}

theorem readNode_shows {s : Snapshot} {t : Node Bytes Bytes} (hb : t.Balanced) {m : PersistedNode}
    (h : Shows sha256 s m t) (levels : ℕ) (hl : t.height < levels) : s.readNode levels m = some t := by
  induction t generalizing m levels with
  | leaf v k x =>
    obtain ⟨hleaf, hf⟩ := h
    obtain ⟨levels, rfl⟩ := Nat.exists_eq_add_of_le' (Nat.zero_lt_of_lt hl)
    rw [Snapshot.readNode, if_pos hleaf]
    simp [hf.version, hf.key, hf.value, Node.version, Node.key]
  | branch ht sz v k l r ihl ihr =>
    obtain ⟨hleaf, hf, ⟨ml, hml, hsl⟩, mr, hmr, hsr⟩ := h
    obtain ⟨hh, -, -, -, hbl, hbr⟩ := hb
    rw [Node.height_branch] at hl
    obtain ⟨levels, rfl⟩ := Nat.exists_eq_add_of_le' (Nat.zero_lt_of_lt hl)
    rw [Snapshot.readNode, if_neg hleaf]
    simp [hml, hmr, ihl hbl hsl levels (by omega), ihr hbr hsr levels (by omega), hf.version,
      hf.key, hf.height, hf.size, Node.version, Node.key, Node.height, Node.size]

/-- A tree that the records of a snapshot can hold. -/
structure Storable (n : ℕ) (root : Option (Node Bytes Bytes)) : Prop where
  inv : ∀ u ∈ root, u.Inv n
  fits : ∀ u ∈ root, Fits u
  length_lt : ∀ u ∈ root, u.toList.length < 2 ^ 32

def writeTree (sha256 : Bytes → Bytes) (height : ℕ) (root : Option (Node Bytes Bytes)) : Option Files :=
  writeSnapshot height (root.map (Node.stored sha256))

variable (sha256 height) in
theorem Storable.doImport (h : Storable n root) (hn : n < 2 ^ 63) :
    Persist.doImport sha256 height (treeNodes root) =
      some ((writeTree sha256 height root).elim (.error .writeFailed) .ok) := by
  refine doImport_treeNodes root hn fun u hu => ⟨h.inv u hu, ?_⟩
  have hlen := h.length_lt u hu
  rw [← (h.inv u hu).balanced.size_eq] at hlen
  omega

theorem Storable.opens (h : Storable n root) (hn : n < 2 ^ 64) (hheight : height < 2 ^ 64)
    (hsha : ∀ b, (sha256 b).length = sizeHash) {f : Files} (hw : writeTree sha256 height root = some f) :
    f.openTree = some ⟨height, root⟩ ∧
      ∃ s, openSnapshot f = .ok s ∧ s.rootHash sha256 = some (Tree.rootHash sha256 ⟨height, root⟩) := by
  rcases root with _ | u
  · obtain rfl : (⟨[], [], [], metadataBytes height⟩ : Files) = f := Option.some.inj hw
    have hopen := openSnapshot_ok (f := ⟨[], [], [], metadataBytes height⟩) (c := 0) rfl hheight rfl rfl (by omega)
    refine ⟨?_, _, hopen, rfl⟩
    simp [Files.openTree, hopen, Except.toOption]
  · have hi := h.inv u rfl
    obtain ⟨s, hopen, hversion, hroot, w⟩ :=
      openSnapshot_of_write hn hheight hi (h.fits u rfl) (h.length_lt u rfl) hsha hw
    have hlen := h.length_lt u rfl
    rw [← hi.balanced.size_eq] at hlen
    have hlevels : u.height < maxLevels := (height_lt_of_size_lt hi.balanced hlen).trans (by decide)
    refine ⟨?_, s, hopen, ?_⟩
    · simp [Files.openTree, hopen, Except.toOption, hroot, hversion, readNode_shows hi.balanced w.shows maxLevels hlevels]
    · have hshows := w.shows
      rw [Snapshot.rootHash, hroot]
      cases u with
      | leaf => exact hshows.2.hash
      | branch => exact hshows.2.1.hash

/-- A tree is written when its pairs fit into a file. -/
theorem Storable.exists_writeTree (h : Storable n root) (hsha : ∀ b, (sha256 b).length = sizeHash)
    (hkvs : ∀ u ∈ root, kvsSize u < maxFileSize) : ∃ f, writeTree sha256 height root = some f := by
  rcases root with _ | u
  · exact ⟨_, rfl⟩
  · exact ⟨_, (writeSnapshot_eq_some_iff height (h.inv u rfl).balanced (h.length_lt u rfl) hsha).mpr ⟨hkvs u rfl, rfl⟩⟩

/-! ### The items of an export -/

def treeItems (r : N × Option (Node Bytes Bytes)) : List (SyncItem N) := .tree r.1 :: (treeNodes r.2).map .node

/-- The items of trees one after the other. -/
def syncItems (roots : List (N × Option (Node Bytes Bytes))) : List (SyncItem N) := roots.flatMap treeItems

omit [LinearOrder N] in
theorem drain_nodes {fuel count i : ℕ} {trees : List (N × SnapshotTree)} (nodes : List ExportNode)
    {rest : List (SyncItem N)} (h : MultiTreeExporter.drain fuel count ⟨trees, i, some []⟩ = some rest) :
    MultiTreeExporter.drain fuel (count + nodes.length) ⟨trees, i, some nodes⟩ = some (nodes.map .node ++ rest) := by
  induction nodes with
  | nil => exact h
  | cons node nodes ih =>
    rw [List.length_cons, ← Nat.add_assoc, MultiTreeExporter.drain]
    simp [MultiTreeExporter.next, ih]

omit [LinearOrder N] in
theorem drain_from {fuel : ℕ} {after : List (N × SnapshotTree)} {roots : List (N × Option (Node Bytes Bytes))}
    (h : List.Forall₂ (fun T r => T.1 = r.1 ∧ T.2.exportTree fuel = some (treeNodes r.2)) after roots)
    (before : List (N × SnapshotTree)) (exporter : Option (List ExportNode)) (hex : ∀ nodes ∈ exporter, nodes = [])
    (count : ℕ) :
    MultiTreeExporter.drain fuel (count + 1 + (syncItems roots).length) ⟨before ++ after, before.length, exporter⟩ =
      some (syncItems roots) := by
  induction h generalizing before exporter with
  | nil =>
    rcases exporter with _ | nodes
    · simp [MultiTreeExporter.drain, MultiTreeExporter.next, syncItems]
    · obtain rfl := hex nodes rfl
      simp [MultiTreeExporter.drain, MultiTreeExporter.next, syncItems]
  | @cons T r after roots hT hrest ih =>
    obtain ⟨name, tree⟩ := T
    obtain ⟨rfl, hexport⟩ := hT
    have hnodes := drain_nodes (treeNodes r.2) (ih (before ++ [(r.1, tree)]) (some []) (by simp))
    have hnext : MultiTreeExporter.next fuel ⟨before ++ (r.1, tree) :: after, before.length, exporter⟩ =
        some (some (.tree r.1, ⟨before ++ (r.1, tree) :: after, before.length + 1, some (treeNodes r.2)⟩)) := by
      rcases exporter with _ | nodes
      · simp [MultiTreeExporter.next, hexport]
      · obtain rfl := hex nodes rfl
        simp [MultiTreeExporter.next, hexport]
    have hlen : count + 1 + (syncItems (r :: roots)).length =
        count + 1 + (syncItems roots).length + (treeNodes r.2).length + 1 := by
      simp only [syncItems, List.flatMap_cons, List.length_append, treeItems, List.length_cons, List.length_map]
      omega
    simp only [List.append_assoc, List.singleton_append, List.length_append, List.length_singleton] at hnodes
    rw [hlen, MultiTreeExporter.drain, hnext]
    simp only [Option.bind_eq_bind, Option.bind_some, hnodes]
    simp [syncItems, treeItems]

omit [LinearOrder N] in
/-- Whatever the trees consist of, their items are listed. -/
theorem exists_drain (hsha : ∀ b, (sha256 b).length = sizeHash) {trees : List (N × SnapshotTree)}
    {roots : List (N × Option (Node Bytes Bytes))}
    (h : List.Forall₂ (fun T r => T.1 = r.1 ∧ Persist.Holds sha256 T.2 r.2 false) trees roots) :
    ∃ enough, ∀ fuel, enough ≤ fuel → MultiTreeExporter.drain fuel fuel ⟨trees, 0, none⟩ = some (syncItems roots) := by
  have hexport : ∃ enough, ∀ fuel, enough ≤ fuel →
      List.Forall₂ (fun T r => T.1 = r.1 ∧ T.2.exportTree fuel = some (treeNodes r.2)) trees roots := by
    induction h with
    | nil => exact ⟨0, fun _ _ => .nil⟩
    | cons hT _ ih =>
      obtain ⟨enough₁, h₁⟩ := (exportTree_eq_postOrder hsha hT.2).1
      obtain ⟨enough₂, h₂⟩ := ih
      exact ⟨max enough₁ enough₂, fun fuel hfuel =>
        .cons ⟨hT.1, h₁ fuel ((le_max_left _ _).trans hfuel)⟩ (h₂ fuel ((le_max_right _ _).trans hfuel))⟩
  obtain ⟨enough, hall⟩ := hexport
  refine ⟨max enough ((syncItems roots).length + 1), fun fuel hfuel => ?_⟩
  obtain ⟨count, hcount⟩ := Nat.exists_eq_add_of_le ((le_max_right _ _).trans hfuel)
  have hdrain := drain_from (hall fuel ((le_max_left _ _).trans hfuel)) [] none (by simp) count
  rwa [show count + 1 + (syncItems roots).length = fuel by omega] at hdrain

/-! ### The import of items -/

namespace MultiTreeImporter

variable {m m₀ : MultiTreeImporter N} {roots : List (N × Option (Node Bytes Bytes))}

/-- The importer after a tree whose nodes it was given. -/
def read (m : MultiTreeImporter N) (r : N × Option (Node Bytes Bytes)) : MultiTreeImporter N :=
  { m with importer := some (r.1, treeNodes r.2) }

theorem addAll_nodes {name : N} {before : List ExportNode} (hm : m.importer = some (name, before))
    (nodes : List ExportNode) (rest : List (SyncItem N)) :
    m.addAll sha256 (nodes.map .node ++ rest) =
      MultiTreeImporter.addAll sha256 rest { m with importer := some (name, before ++ nodes) } := by
  induction nodes generalizing m before with
  | nil =>
    rw [List.append_nil, ← hm]
    rfl
  | cons node nodes ih =>
    rw [List.map_cons, List.cons_append, addAll, add, hm]
    simp only [Option.bind_eq_bind, Option.bind_some]
    rw [ih rfl, List.append_assoc, List.singleton_append]

theorem addAll_treeItems (hm : m.closeImporter sha256 = some m₀) (r : N × Option (Node Bytes Bytes))
    (rest : List (SyncItem N)) : m.addAll sha256 (treeItems r ++ rest) = (m₀.read r).addAll sha256 rest := by
  rw [treeItems, List.cons_append, addAll, add, hm]
  simp only [Option.bind_eq_bind, Option.bind_some]
  rw [addAll_nodes rfl]
  rfl

/-- The trees are written one after the other. -/
theorem closeImporter_addAll (hm : m.closeImporter sha256 = some m₀) :
    (m.addAll sha256 (syncItems roots)).bind (closeImporter sha256) =
      roots.foldlM (fun m r => (m.read r).closeImporter sha256) m₀ := by
  induction roots generalizing m m₀ with
  | nil => exact hm
  | cons r roots ih =>
    rw [syncItems, List.flatMap_cons, addAll_treeItems hm, List.foldlM_cons]
    rcases hr : (m₀.read r).closeImporter sha256 with _ | m₁
    · rcases roots with _ | ⟨r', roots⟩
      · exact hr
      · simp [treeItems, addAll, add, hr]
    · exact ih hr

theorem addAll_append (items items' : List (SyncItem N)) (m : MultiTreeImporter N) :
    m.addAll sha256 (items ++ items') = (m.addAll sha256 items).bind (addAll sha256 items') := by
  induction items generalizing m with
  | nil => rfl
  | cons item items ih =>
    rw [List.cons_append, addAll, addAll, Option.bind_assoc]
    exact Option.bind_congr fun m _ => ih m

end MultiTreeImporter

section Written
variable (sha256 : Bytes → Bytes) (height : ℕ)

def treeFiles (r : N × Option (Node Bytes Bytes)) : N × Files :=
  (r.1, (writeTree sha256 height r.2).getD ⟨[], [], [], []⟩)

/-- The temporary directory after trees were written to it. -/
def writtenDir (roots : List (N × Option (Node Bytes Bytes))) (tmpDir : Option (List (N × Files))) :
    Option (List (N × Files)) :=
  roots.foldl (fun dir r => some (insertPair r.1 (treeFiles sha256 height r).2 (dir.getD []))) tmpDir

theorem writtenDir_some (roots : List (N × Option (Node Bytes Bytes))) (d : List (N × Files)) :
    writtenDir sha256 height roots (some d) = some (insertPairs (roots.map (treeFiles sha256 height)) d) := by
  induction roots generalizing d with
  | nil => rfl
  | cons r roots ih => exact ih (insertPair r.1 (treeFiles sha256 height r).2 d)

theorem writtenDir_cons (r : N × Option (Node Bytes Bytes)) (roots : List (N × Option (Node Bytes Bytes)))
    (tmpDir : Option (List (N × Files))) :
    writtenDir sha256 height (r :: roots) tmpDir =
      some (insertPairs ((r :: roots).map (treeFiles sha256 height)) (tmpDir.getD [])) :=
  writtenDir_some sha256 height roots (insertPair r.1 (treeFiles sha256 height r).2 (tmpDir.getD []))

end Written

section Imported
variable {roots : List (N × Option (Node Bytes Bytes))} {tmpDir : Option (List (N × Files))}

theorem foldlM_read (hroots : ∀ r ∈ roots, Storable n r.2) (hn : n < 2 ^ 63) {m : MultiTreeImporter N} :
    roots.foldlM (fun (m : MultiTreeImporter N) r => (m.read r).closeImporter sha256) ⟨height, tmpDir, none⟩ = some m ↔
      (∀ r ∈ roots, (writeTree sha256 height r.2).isSome) ∧
        m = ⟨height, writtenDir sha256 height roots tmpDir, none⟩ := by
  induction roots generalizing tmpDir with
  | nil =>
    rw [List.foldlM_nil]
    exact ⟨fun h => ⟨by simp, (Option.some.inj h).symm⟩, fun h => h.2 ▸ rfl⟩
  | cons r roots ih =>
    have hread := Storable.doImport sha256 height (hroots r (by simp)) hn
    rw [List.foldlM_cons, MultiTreeImporter.read, MultiTreeImporter.closeImporter]
    simp only [hread]
    rcases hw : writeTree sha256 height r.2 with _ | f
    · simp [hw]
    · simp only [Option.elim_some, Option.bind_eq_bind, Option.bind_some]
      rw [ih fun r hr => hroots r (by simp [hr])]
      simp [hw, writtenDir, treeFiles]

/-- An import succeeds when every tree can be written and the directory can be read. -/
theorem importItems_eq_some_iff (hroots : ∀ r ∈ roots, Storable n r.2) (hn : n < 2 ^ 63) {dir : SnapshotDir N} :
    importItems sha256 height tmpDir (syncItems roots) = some dir ↔
      height ≤ maxInt64 ∧ (∀ r ∈ roots, (writeTree sha256 height r.2).isSome) ∧
        ∃ d, writtenDir sha256 height roots tmpDir = some d ∧ updateMetadataFile sha256 height d = some dir := by
  rw [importItems, newMultiTreeImporter]
  split_ifs with hh
  · simp [hh]
  have hall : (MultiTreeImporter.addAll sha256 (syncItems roots) ⟨height, tmpDir, none⟩).bind
      (MultiTreeImporter.closeImporter sha256) = _ := MultiTreeImporter.closeImporter_addAll rfl
  simp only [Option.bind_eq_bind, Option.bind_some, MultiTreeImporter.finalize]
  rw [← Option.bind_assoc, hall, Option.bind_eq_some_iff]
  simp only [foldlM_read hroots hn, Option.bind_eq_some_iff, and_assoc, exists_and_left, exists_eq_left, not_lt.mp hh,
    true_and]

omit [LinearOrder N] in
theorem openTrees_treeFiles (hsha : ∀ b, (sha256 b).length = sizeHash) (hroots : ∀ r ∈ roots, Storable n r.2)
    (hn : n < 2 ^ 64) (hh : height < 2 ^ 64) (hw : ∀ r ∈ roots, (writeTree sha256 height r.2).isSome) :
    openTrees sha256 height (roots.map (treeFiles sha256 height)) =
      some (roots.map fun r => ⟨r.1, height, Tree.rootHash sha256 ⟨height, r.2⟩⟩,
        roots.map fun r => ⟨r.1, ⟨height, r.2⟩⟩) := by
  induction roots with
  | nil => rfl
  | cons r roots ih =>
    obtain ⟨f, hf⟩ := Option.isSome_iff_exists.mp (hw r (by simp))
    obtain ⟨htree, s, hopen, hhash⟩ := (hroots r (by simp)).opens hn hh hsha hf
    have hrest := ih (fun r hr => hroots r (by simp [hr])) fun r hr => hw r (by simp [hr])
    simp [treeFiles, hf, openTrees, hopen, Except.toOption, hhash, htree, hrest]

omit [LinearOrder N] in
theorem names_openTrees {d : List (N × Files)} {infos : List (StoreInfo N)} {trees : List (NamedTree N)}
    (h : openTrees sha256 height d = some (infos, trees)) : trees.map NamedTree.name = d.map Prod.fst := by
  induction d generalizing infos trees with
  | nil =>
    cases h
    rfl
  | cons p d ih =>
    simp only [openTrees, Option.bind_eq_bind, Option.bind_eq_some_iff, Option.some.injEq, Prod.mk.injEq] at h
    obtain ⟨s, -, hash, -, tree, -, ⟨infos', trees'⟩, hrest, -, rfl⟩ := h
    rw [List.map_cons, List.map_cons, ih hrest]

end Imported

end IavlStore.Multi
