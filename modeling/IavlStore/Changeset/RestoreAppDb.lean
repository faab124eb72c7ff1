import IavlStore.Changeset.AppDb
import IavlStore.Extsort.Spawn
import IavlStore.VersionDb.Ingest

/-! The application database rebuilt from a snapshot. The records of all nodes are sorted by their hashes and
written to files, each of which is finished when it is large enough, and the record of the root comes
last. The files hold a record for every node, and the tree of the snapshot is read back from them. -/

namespace IavlStore.Changeset

open IavlStore.Base.Encoding IavlStore.Base.ByteOrder IavlStore.Base.Heaps IavlStore.Base.SortedPairs
open IavlStore.Extsort IavlStore.Persist IavlStore.Tree IavlStore.VersionDb

abbrev AppEntry := Bytes × Bytes

/-- The letter `n` and the hash. -/
def nodeKey (store hash : Bytes) : Bytes := prependStoreKey store (110 :: hash)

/-- The letter `r` and the version, most significant byte first. -/
def rootKey (store : Bytes) (version : ℤ) : Bytes := prependStoreKey store (114 :: (putLE 8 (uint64 version)).reverse)

/-- The hash that an item begins with. No item is shorter than that, where the source would panic. -/
def hashPart (item : Bytes) : Bytes := item.take sizeHash

def compareSorterNode (a b : Bytes) : Bool := decide (hashPart a < hashPart b)

theorem compareSorterNode_eq : compareSorterNode = byKey hashPart := by
  funext a b
  exact decide_eq_decide.mpr Iff.rfl

instance strictWeakOrderSorterNode : IsStrictWeakOrder Bytes fun a b => compareSorterNode a b = true := by
  rw [compareSorterNode_eq]
  exact strictWeakOrder_byKey hashPart

def nodeSorterOptions (sorterChunkSize : ℕ) : Options := ⟨false, true, int64 sorterChunkSize, compareSorterNode⟩

instance strictWeakOrderNodeOptions (sorterChunkSize : ℕ) :
    IsStrictWeakOrder Bytes fun a b => (nodeSorterOptions sorterChunkSize).lesserFunc a b = true :=
  strictWeakOrderSorterNode

inductive RestoreError where
  /-- A node that cannot be read. -/
  | panic
  | sorter (err : SpawnError)
  | sst (err : SSTError)
  | versionOverflow (version : ℕ)

/-! ### Writing -/

/-- The order of the application database. -/
def AppEntry.compare (a b : AppEntry) : ℤ := Comparator.bytesCompare a.1 b.1

/-- The files that are finished and the one that is being written. -/
structure AppFiles where
  finished : List (List AppEntry)
  current : List AppEntry

section
variable (store : Bytes) (w : SSTFileWriter AppEntry) (sstFileSizeTarget : ℕ)

def AppFiles.put (files : AppFiles) (e : AppEntry) : Except SSTError AppFiles :=
  match SSTFileWriter.add AppEntry.compare e files.current with
  | .error e => .error e
  | .ok current =>
    if sstFileSizeTarget ≤ w.fileSize current then
      (SSTFileWriter.finish current).map fun file => ⟨files.finished ++ [file], []⟩
    else .ok { files with current := current }

/-- An item as an entry. -/
def nodeEntry (item : Bytes) : AppEntry := (nodeKey store (hashPart item), item.drop sizeHash)

/-- The record of the root in the last file. -/
def AppFiles.putRoot (files : AppFiles) (s : Snapshot) : Except RestoreError (List (List AppEntry)) :=
  if maxInt64 < s.version then .error (.versionOverflow s.version)
  else
    match snapshotRootHash s with
    | none => .error .panic
    | some rootHash =>
      match (SSTFileWriter.add AppEntry.compare (rootKey store (int64 s.version), rootHash) files.current).bind
          SSTFileWriter.finish with
      | .error e => .error (.sst e)
      | .ok file => .ok (files.finished ++ [file])

/-- The files of a store, with a schedule for the sorter in the background. -/
def oneStore (libs : Libraries compareSorterNode) (sorterChunkSize : ℕ) (s : Snapshot) (schedule : Schedule) :
    Option (Except RestoreError (List (List AppEntry))) :=
  match scanNodes s (encodeSorterNode s) with
  | none => some (.error .panic)
  | some items =>
    match spawn (nodeSorterOptions sorterChunkSize) libs items schedule with
    | none => none
    | some (.error e) => some (.error (.sorter e))
    | some (.ok sorted) =>
      match (sorted.map (nodeEntry store)).foldlM (AppFiles.put w sstFileSizeTarget) ⟨[], []⟩ with
      | .error e => some (.error (.sst e))
      | .ok files => some (files.putRoot store s)

end

/-! ### Loading -/

/-- The tree that the records of a version lead to; the hash of an empty tree is empty. -/
def loadVersion (store : Bytes) (records : List AppEntry) (levels : ℕ) (version : ℤ) :
    Option (Option (Node Bytes Bytes)) :=
  match lookupPair (rootKey store version) records with
  | none => none
  | some rootHash =>
    if rootHash = [] then some none
    else (loadNode (fun hash => lookupPair (nodeKey store hash) records) levels rootHash).map some

/-! ### Entries in order -/

variable {store : Bytes} {w : SSTFileWriter AppEntry} {sstFileSizeTarget : ℕ} {files : AppFiles} {e : AppEntry}
  {done entries : List AppEntry}

theorem compare_pos {a b : AppEntry} (h : a.1 < b.1) : 0 < AppEntry.compare b a := by
  simp [AppEntry.compare, Comparator.bytesCompare, h, h.not_gt]

theorem add_appEntry (h : files.finished.flatten ++ files.current = done) (hlt : ∀ a ∈ done, a.1 < e.1) :
    SSTFileWriter.add AppEntry.compare e files.current = .ok (files.current ++ [e]) :=
  SSTFileWriter.add_eq fun last hlast =>
    compare_pos (hlt last (h ▸ List.mem_append_right _ (List.mem_of_getLast? hlast)))

variable (w sstFileSizeTarget) in
/-- An entry with a greater key is written. -/
theorem AppFiles.exists_put (h : files.finished.flatten ++ files.current = done) (hlt : ∀ a ∈ done, a.1 < e.1) :
    ∃ files', files.put w sstFileSizeTarget e = .ok files' ∧
      files'.finished.flatten ++ files'.current = done ++ [e] := by
  unfold AppFiles.put
  rw [add_appEntry h hlt]
  dsimp only
  split_ifs
  · rw [SSTFileWriter.finish_eq (by simp)]
    exact ⟨_, rfl, by simp [← h]⟩
  · exact ⟨_, rfl, by simp [← h]⟩

variable (w sstFileSizeTarget) in
theorem AppFiles.exists_foldlM (h : files.finished.flatten ++ files.current = done) (hsorted : Sorted (done ++ entries)) :
    ∃ files', entries.foldlM (AppFiles.put w sstFileSizeTarget) files = .ok files' ∧
      files'.finished.flatten ++ files'.current = done ++ entries := by
  induction entries generalizing files done with
  | nil => exact ⟨files, rfl, by rwa [List.append_nil]⟩
  | cons e entries ih =>
    have hlt : ∀ a ∈ done, a.1 < e.1 := fun a ha => (Sorted.append_iff.mp hsorted).2.2 a ha e (by simp)
    obtain ⟨files₁, hput, h₁⟩ := AppFiles.exists_put w sstFileSizeTarget h hlt
    rw [← List.singleton_append, ← List.append_assoc] at hsorted
    obtain ⟨files', hrest, h'⟩ := ih h₁ hsorted
    exact ⟨files', by rw [List.foldlM_cons, hput]; exact hrest, by simpa using h'⟩

/-! ### The records of a tree -/

theorem nodeKey_lt_nodeKey {hash hash' : Bytes} : nodeKey store hash < nodeKey store hash' ↔ hash < hash' := by
  simp [nodeKey, prependStoreKey, bytes_append_lt_append]

theorem nodeKey_lt_rootKey (hash : Bytes) (version : ℤ) : nodeKey store hash < rootKey store version := by
  rw [nodeKey, rootKey, prependStoreKey, prependStoreKey, bytes_append_lt_append, bytes_cons_lt_cons]
  exact .inl (by decide)

variable {sha256 : Bytes → Bytes} {trees : List (Node Bytes Bytes)} {s : Snapshot} {t : Option (Node Bytes Bytes)}

/-- The entry of a node. -/
def treeEntry (sha256 : Bytes → Bytes) (store : Bytes) (t : Node Bytes Bytes) : AppEntry :=
  (nodeKey store (t.hashNode sha256), nodeBytes sha256 t)

section
variable (hsha : ∀ b, (sha256 b).length = sizeHash)
include hsha

theorem hashPart_nodeItem (t : Node Bytes Bytes) : hashPart (nodeItem sha256 t) = t.hashNode sha256 :=
  List.take_left' (hashNode_length hsha t)

theorem nodeEntry_nodeItem (store : Bytes) (t : Node Bytes Bytes) :
    nodeEntry store (nodeItem sha256 t) = treeEntry sha256 store t := by
  rw [nodeEntry, hashPart_nodeItem hsha, nodeItem, List.drop_left' (hashNode_length hsha t)]
  rfl

variable (store) in
/-- What the sorter returns are the entries of the nodes, in the order of their keys. -/
theorem exists_sortedNodes {items : List Bytes} (hperm : items.Perm (trees.map (nodeItem sha256)))
    (hasc : Ascending compareSorterNode items) (hnodup : (trees.map (Node.hashNode sha256)).Nodup) :
    ∃ sorted : List (Node Bytes Bytes), sorted.Perm trees ∧
      items.map (nodeEntry store) = sorted.map (treeEntry sha256 store) ∧ Sorted (sorted.map (treeEntry sha256 store)) := by
  obtain ⟨sorted, hsorted, rfl⟩ := exists_perm_map hperm
  refine ⟨sorted, hsorted, ?_, ?_⟩
  · rw [List.map_map]
    exact List.map_congr_left fun t _ => nodeEntry_nodeItem hsha store t
  · have hdistinct : sorted.Pairwise fun a b => a.hashNode sha256 ≠ b.hashNode sha256 :=
      List.pairwise_map.mp ((hsorted.map _).nodup_iff.mpr hnodup)
    refine List.pairwise_map.mpr (((List.pairwise_map.mp hasc).and hdistinct).imp fun {a b} h => ?_)
    obtain ⟨hle, hne⟩ := h
    rw [compareSorterNode_eq, byKey_eq_false, hashPart_nodeItem hsha, hashPart_nodeItem hsha] at hle
    exact nodeKey_lt_nodeKey.mpr (lt_of_le_of_ne hle hne)

end

/-- The entries of a tree are written, and the record of the root after them. -/
theorem exists_putRoot (hversion : s.version ≤ maxInt64) {rootHash : Bytes} (hroot : snapshotRootHash s = some rootHash)
    (h : files.finished.flatten ++ files.current = done) (hdone : ∀ a ∈ done, ∃ hash, a.1 = nodeKey store hash) :
    ∃ sst, files.putRoot store s = .ok sst ∧ sst.flatten = done ++ [(rootKey store (int64 s.version), rootHash)] := by
  have hlt : ∀ a ∈ done, a.1 < rootKey store (int64 s.version) := by
    intro a ha
    obtain ⟨hash, heq⟩ := hdone a ha
    rw [heq]
    exact nodeKey_lt_rootKey hash _
  refine ⟨files.finished ++ [files.current ++ [(rootKey store (int64 s.version), rootHash)]], ?_, by simp [← h]⟩
  rw [AppFiles.putRoot, if_neg (not_lt.mpr hversion), hroot]
  dsimp only
  rw [add_appEntry (e := (rootKey store (int64 s.version), rootHash)) h hlt]
  dsimp only [Except.bind]
  rw [SSTFileWriter.finish_eq (by simp)]

/-- From the records of all nodes and of the root the tree is read back. -/
theorem loadVersion_eq (hsha : ∀ b, (sha256 b).length = sizeHash) {n : ℕ} (hn : n < 2 ^ 64)
    (ht : ∀ u ∈ t, u.Inv n ∧ u.size < 2 ^ 32) (hitems : ∀ u ∈ treeSubtrees t, (nodeItem sha256 u).length < 2 ^ 32)
    {records : List AppEntry} (hsorted : Sorted records)
    (hnodes : ∀ u ∈ treeSubtrees t, treeEntry sha256 store u ∈ records) {version : ℤ}
    (hroot : (rootKey store version, t.elim [] (Node.hashNode sha256)) ∈ records) :
    ∃ enough, ∀ levels, enough ≤ levels → loadVersion store records levels version = some t := by
  have hlookup := (mem_iff_lookupPair hsorted _ _).mp hroot
  rcases t with _ | t
  · refine ⟨0, fun levels _ => ?_⟩
    rw [loadVersion, hlookup]
    rfl
  · obtain ⟨hi, hsize⟩ := ht t rfl
    refine ⟨t.height + 1, fun levels hlevels => ?_⟩
    have hne : t.hashNode sha256 ≠ [] := by
      intro hnil
      have hlen := hashNode_length hsha t
      rw [hnil] at hlen
      simp [sizeHash] at hlen
    have hbytes : ∀ u ∈ subtrees t, (nodeBytes sha256 u).length < 2 ^ 32 := by
      intro u hu
      have hlt := hitems u hu
      rw [nodeItem, List.length_append] at hlt
      omega
    have hload : loadNode (fun hash => lookupPair (nodeKey store hash) records) levels (t.hashNode sha256) = some t :=
      loadNode_hashNode hi hn hsize hbytes (fun u hu => (mem_iff_lookupPair hsorted _ _).mp (hnodes u hu)) (by omega)
    rw [loadVersion, hlookup]
    dsimp only [Option.elim_some]
    rw [if_neg hne, hload]
    rfl

/-- Sorted items are all written, and the record of the root after them. -/
theorem exists_files (hsha : ∀ b, (sha256 b).length = sizeHash) {rootHash : Bytes}
    (hroot : snapshotRootHash s = some rootHash) (hnodup : (trees.map (Node.hashNode sha256)).Nodup)
    (hversion : s.version ≤ maxInt64) (store : Bytes) (w : SSTFileWriter AppEntry) (sstFileSizeTarget : ℕ)
    {items : List Bytes} (hperm : items.Perm (trees.map (nodeItem sha256))) (hasc : Ascending compareSorterNode items) :
    ∃ files sst, (items.map (nodeEntry store)).foldlM (AppFiles.put w sstFileSizeTarget) ⟨[], []⟩ = .ok files ∧
      files.putRoot store s = .ok sst ∧ Sorted sst.flatten ∧
      ∃ nodes, nodes.Perm (trees.map (treeEntry sha256 store)) ∧
        sst.flatten = nodes ++ [(rootKey store s.version, rootHash)] := by
  obtain ⟨sorted, hsorted, hentries, horder⟩ := exists_sortedNodes store hsha hperm hasc hnodup
  have hversion' : int64 s.version = s.version := int64_of_lt (by unfold maxInt64 at hversion; omega)
  have hstart : (⟨[], []⟩ : AppFiles).finished.flatten ++ (⟨[], []⟩ : AppFiles).current = [] := rfl
  obtain ⟨files, hfold, hfiles⟩ := AppFiles.exists_foldlM w sstFileSizeTarget hstart horder
  rw [List.nil_append] at hfiles
  have hkeys : ∀ a ∈ sorted.map (treeEntry sha256 store), ∃ hash, a.1 = nodeKey store hash := by
    intro a ha
    obtain ⟨t, -, rfl⟩ := List.mem_map.mp ha
    exact ⟨_, rfl⟩
  obtain ⟨sst, hput, hflat⟩ := exists_putRoot hversion hroot hfiles hkeys
  rw [hversion'] at hflat
  refine ⟨files, sst, by rw [hentries, hfold], hput, ?_, _, hsorted.map _, hflat⟩
  rw [hflat]
  refine Sorted.append_iff.mpr ⟨horder, List.pairwise_singleton _ _, fun a ha b hb => ?_⟩
  obtain ⟨hash, heq⟩ := hkeys a ha
  rw [heq, List.mem_singleton.mp hb]
  exact nodeKey_lt_rootKey hash _

/-- However the chunks are finished, the files hold one record for every node under its hash, and last that of
the root, all in the order of their keys. Following the hashes from the root gives the tree of the
snapshot. -/
theorem oneStore_complete (hsha : ∀ b, (sha256 b).length = sizeHash) (h : OpenedFrom sha256 s t)
    (hdistinct : ((treeSubtrees t).map (Node.hashNode sha256)).Nodup)
    (hitems : ∀ u ∈ treeSubtrees t, (nodeItem sha256 u).length < 2 ^ 32) (hversion : s.version ≤ maxInt64)
    (store : Bytes) (libs : Libraries compareSorterNode) (w : SSTFileWriter AppEntry)
    (sstFileSizeTarget sorterChunkSize : ℕ) :
    let restore := oneStore store w sstFileSizeTarget libs sorterChunkSize s
    (∃ schedule, (restore schedule).isSome) ∧
      ∀ schedule result, restore schedule = some result → ∃ sst, result = .ok sst ∧ Sorted sst.flatten ∧
        (∃ nodes, nodes.Perm ((treeSubtrees t).map (treeEntry sha256 store)) ∧
          sst.flatten = nodes ++ [(rootKey store s.version, t.elim [] (Node.hashNode sha256))]) ∧
        ∃ enough, ∀ levels, enough ≤ levels → loadVersion store sst.flatten levels s.version = some t := by
  intro restore
  obtain ⟨hscan, hroot⟩ := scanNodes_encodeSorterNode hsha h
  have hshort : ∀ item ∈ (treeSubtrees t).map (nodeItem sha256), item.length < 2 ^ 32 := by
    intro item hitem
    obtain ⟨u, hu, rfl⟩ := List.mem_map.mp hitem
    exact hitems u hu
  -- what a run of the sorter leads to
  have hrestore : ∀ schedule r,
      spawn (nodeSorterOptions sorterChunkSize) libs ((treeSubtrees t).map (nodeItem sha256)) schedule = some r →
      ∃ sst, restore schedule = some (.ok sst) ∧ Sorted sst.flatten ∧
        ∃ nodes, nodes.Perm ((treeSubtrees t).map (treeEntry sha256 store)) ∧
          sst.flatten = nodes ++ [(rootKey store s.version, t.elim [] (Node.hashNode sha256))] := by
    intro schedule r hrun
    obtain ⟨items, rfl, hperm, hasc⟩ := spawn_sorts hshort hrun
    obtain ⟨files, sst, hfold, hput, hrecords⟩ :=
      exists_files hsha hroot hdistinct hversion store w sstFileSizeTarget hperm hasc
    refine ⟨sst, ?_, hrecords⟩
    simp only [restore, oneStore, hscan, hrun, hfold, hput]
  refine ⟨?_, fun schedule result hresult => ?_⟩
  · obtain ⟨schedule, hsome⟩ := exists_schedule (nodeSorterOptions sorterChunkSize) libs hshort
    obtain ⟨r, hrun⟩ := Option.isSome_iff_exists.mp hsome
    obtain ⟨sst, hok, -⟩ := hrestore schedule r hrun
    exact ⟨schedule, by rw [hok]; rfl⟩
  · rcases hrun : spawn (nodeSorterOptions sorterChunkSize) libs ((treeSubtrees t).map (nodeItem sha256)) schedule
      with _ | r
    · simp [restore, oneStore, hscan, hrun] at hresult
    · obtain ⟨sst, hok, hsorted, nodes, hperm, hflat⟩ := hrestore schedule r hrun
      refine ⟨sst, Option.some.inj (hresult.symm.trans hok), hsorted, ⟨nodes, hperm, hflat⟩, ?_⟩
      obtain ⟨n, version, f, hn, -, ht, -, -⟩ := h
      refine loadVersion_eq hsha hn (fun u hu => ?_) hitems hsorted (fun u hu => ?_) (by simp [hflat])
      · obtain ⟨hi, -, hlen⟩ := ht u hu
        exact ⟨hi, by rwa [hi.balanced.size_eq]⟩
      · rw [hflat]
        exact List.mem_append_left _ (hperm.mem_iff.mpr (List.mem_map_of_mem hu))

/-- Items sorted by insertion, and files that are as large as the number of their entries. -/
def insertionNodeLibraries : Libraries compareSorterNode where
  sortSlice := List.insertionSort fun a b => hashPart a ≤ hashPart b
  sortSlice_spec l := compareSorterNode_eq ▸ insertionSort_ascending hashPart l
  snappy := ⟨id, id, fun _ => rfl⟩
  heap := binaryHeap _

def countingAppWriter : SSTFileWriter AppEntry := ⟨List.length, rfl⟩

/-- A tree with three leaves, under a hash that is the beginning of what is hashed. -/
theorem oneStore_complete_threeLeaves :
    let sha256 : Bytes → Bytes := fun b => b.take 32 ++ List.replicate (32 - b.length) 0
    ∃ s, OpenedFrom sha256 s (some threeLeaves) ∧ ∃ schedule sst levels,
      oneStore [97] countingAppWriter 2 insertionNodeLibraries 30 s schedule = some (.ok sst) ∧
      loadVersion [97] sst.flatten levels s.version = some (some threeLeaves) := by
  intro sha256
  have hsha : ∀ b, (sha256 b).length = sizeHash := by
    intro b
    simp only [sha256, List.length_append, List.length_take, List.length_replicate, sizeHash]
    omega
  obtain ⟨s, hs, hversion⟩ := exists_openedFrom hsha (by decide) threeLeaves_inv
    (by simp [Fits, threeLeaves, Node.toList]) (by decide) (by decide)
  obtain ⟨⟨schedule, hsome⟩, hall⟩ := oneStore_complete hsha hs (by decide +kernel) (by decide +kernel)
    (by rw [hversion]; decide) [97] insertionNodeLibraries countingAppWriter 2 30
  obtain ⟨result, hresult⟩ := Option.isSome_iff_exists.mp hsome
  obtain ⟨sst, rfl, -, -, enough, hload⟩ := hall schedule result hresult
  exact ⟨s, hs, schedule, sst, enough, hresult, hload enough le_rfl⟩

theorem oneStore_of_long {value : Bytes} (hvalue : value.length = 2 ^ 32 - 1)
    (hsha : ∀ b, (sha256 b).length = sizeHash) :
    ∃ s, OpenedFrom sha256 s (some (.leaf 1 [] value)) ∧ s.version = 1 ∧
      oneStore [97] countingAppWriter 2 insertionNodeLibraries 30 s ⟨[], []⟩ =
        some (.error (.sorter (.feed .itemTooLong))) := by
  have hi : (Node.leaf 1 [] value).Inv 1 := ⟨trivial, trivial, trivial, le_rfl⟩
  have hfits : Fits (.leaf 1 [] value) := by
    simp only [Fits, Node.toList, List.mem_singleton, forall_eq, List.length_nil, hvalue]
    omega
  have hkvs : kvsSize (.leaf 1 [] value) < maxFileSize := by
    simp only [kvsSize, Node.toList, List.map_singleton, List.sum_singleton, List.length_nil, hvalue, maxFileSize]
    omega
  obtain ⟨s, hs, hversion⟩ := exists_openedFrom hsha (by omega) hi hfits (by simp [Node.toList]) hkvs
  refine ⟨s, hs, hversion, ?_⟩
  have hlong : 2 ^ 32 ≤ (nodeItem sha256 (.leaf 1 [] value)).length := by
    have hhash := hashNode_length hsha (.leaf 1 [] value)
    simp only [nodeItem, nodeBytes, encodeBytes, List.length_append, hhash, hvalue, sizeHash]
    omega
  have hspawn : spawn (nodeSorterOptions 30) insertionNodeLibraries [nodeItem sha256 (.leaf 1 [] value)] ⟨[], []⟩ =
      some (.error (.feed .itemTooLong)) := spawn_too_long hlong
  have hscan : scanNodes s (encodeSorterNode s) = some [nodeItem sha256 (.leaf 1 [] value)] :=
    (scanNodes_encodeSorterNode hsha hs).1
  simp only [oneStore, hscan, hspawn]

/-- A value of almost four gigabytes is in the snapshot, but its node is no item for the sorter. -/
theorem oneStore_long_value :
    let sha256 : Bytes → Bytes := fun _ => List.replicate 32 0
    let t : Node Bytes Bytes := .leaf 1 [] (List.replicate (2 ^ 32 - 1) 0)
    ∃ s, OpenedFrom sha256 s (some t) ∧ s.version = 1 ∧
      oneStore [97] countingAppWriter 2 insertionNodeLibraries 30 s ⟨[], []⟩ =
        some (.error (.sorter (.feed .itemTooLong))) :=
  oneStore_of_long List.length_replicate fun _ => List.length_replicate

end IavlStore.Changeset
