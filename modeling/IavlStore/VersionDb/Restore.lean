import IavlStore.Persist.Export
import IavlStore.VersionDb.Import

/-! Trees restored into the database. The stream has the branches of a tree among its leaves, and a branch
has the key of the first leaf on its right. Its entry has no value and comes later, so of every tree the
first leaf alone is restored with its value. -/

namespace IavlStore.VersionDb

open IavlStore.Base.Encoding IavlStore.Base.SortedPairs IavlStore.Persist IavlStore.Tree

variable {R : PlainRocksDB}

/-! ### Trees in the stream -/

/-- A tree under its name. -/
structure NamedTree where
  name : Bytes
  root : Option (Node Bytes Bytes)
  ordered : ∀ t ∈ root, t.Ordered

def NamedTree.pairs (t : NamedTree) : List (Bytes × Bytes) := t.root.elim [] Node.toList

def exportItem (n : ExportNode) : SnapshotItem := .iavl n.key (n.value.getD []) n.height n.version

/-- The stream of a list of trees. -/
def snapshotStream (trees : List NamedTree) : List (Except Unit SnapshotItem) :=
  trees.flatMap fun t => .ok (.store t.name) :: (treeNodes t.root).map fun n => .ok (exportItem n)

/-- From the height on, every tree is read as it was. -/
def Restored (height : ℤ) (trees : List NamedTree) (s : Store R.toRocksDB) : Prop :=
  ∀ t ∈ trees, ∀ (key : Bytes) (version : Option ℤ), (∀ v ∈ version, height ≤ v ∧ v < 2 ^ 63) →
    s.getAtVersion t.name key version = lookupPair key t.pairs

/-- The values after the first are lost. -/
def overwritten : List (Bytes × Bytes) → List (Bytes × Bytes)
  | [] => []
  | p :: pairs => p :: pairs.map fun q => (q.1, [])

/-- The trees before a node whose store has no name. -/
def reached : List NamedTree → List NamedTree
  | [] => []
  | t :: trees => if t.name = [] ∧ t.root ≠ none then [] else t :: reached trees

/-- What the database holds of a tree, under the keys of the database. -/
def NamedTree.shown (t : NamedTree) : List (Bytes × Bytes) :=
  (overwritten t.pairs).map fun p => (prependStoreKey t.name p.1, p.2)

/-- What it holds of a list of trees. Of two trees that spell the same key the later one counts. -/
def shown (trees : List NamedTree) : List (Bytes × Bytes) := (reached trees).reverse.flatMap NamedTree.shown

def nodePair (n : ExportNode) : Bytes × Bytes := (n.key, n.value.getD [])

theorem toList_eq_cons (t : Node Bytes Bytes) : ∃ x pairs, t.toList = (t.minKey, x) :: pairs := by
  induction t with
  | leaf v k x => exact ⟨x, [], rfl⟩
  | branch ht s v k l r ihl _ =>
    obtain ⟨x, pairs, hl⟩ := ihl
    exact ⟨x, pairs ++ r.toList, by rw [Node.toList, hl]; rfl⟩

theorem map_fst_overwritten (pairs : List (Bytes × Bytes)) :
    (overwritten pairs).map Prod.fst = pairs.map Prod.fst := by
  cases pairs <;> simp [overwritten, Function.comp_def]

theorem overwritten_append {l r : List (Bytes × Bytes)} (hl : l ≠ []) :
    overwritten (l ++ r) = overwritten l ++ r.map fun q => (q.1, []) := by
  cases l with
  | nil => exact absurd rfl hl
  | cons p l => simp [overwritten]

theorem lookupPair_blank (key : Bytes) (pairs : List (Bytes × Bytes)) :
    lookupPair key (pairs.map fun q => (q.1, ([] : Bytes))) = (lookupPair key pairs).map fun _ => [] := by
  induction pairs with
  | nil => rfl
  | cons p pairs ih =>
    rw [List.map_cons, lookupPair_cons, lookupPair_cons, ih]
    split_ifs <;> rfl

/-- Reading the nodes of a tree backwards, the first leaf alone is found with its value. -/
theorem lookupPair_exportNodes {t : Node Bytes Bytes} (h : t.Ordered) (key : Bytes) :
    lookupPair key ((exportNodes t).map nodePair).reverse = lookupPair key (overwritten t.toList) := by
  induction t with
  | leaf v k x => rfl
  | branch ht s v k l r ihl ihr =>
    have hright := h.atLeast
    obtain ⟨hleft, hmin, hl, hr⟩ := h
    have hreverse : ((exportNodes (.branch ht s v k l r)).map nodePair).reverse =
        (k, []) :: (((exportNodes r).map nodePair).reverse ++ ((exportNodes l).map nodePair).reverse) := by
      simp [exportNodes, nodePair]
    rw [hreverse, lookupPair_cons, lookupPair_append, ihl hl, ihr hr, Node.toList,
      overwritten_append l.toList_ne_nil, lookupPair_append]
    -- the keys on the left are below that of the branch, those on the right are not
    have hnone : k ≤ key → lookupPair key (overwritten l.toList) = none := by
      intro hle
      refine lookupPair_eq_none fun p hp hkey => ?_
      have hmem := List.mem_map_of_mem (f := Prod.fst) hp
      rw [map_fst_overwritten] at hmem
      obtain ⟨q, hq, hqp⟩ := List.mem_map.mp hmem
      exact absurd (hleft q hq) (not_lt.mpr (by rw [hqp, hkey]; exact hle))
    obtain ⟨x, pairs, hpairs⟩ := toList_eq_cons r
    rw [← hmin] at hpairs
    split_ifs with hk
    · subst hk
      rw [hnone le_rfl, lookupPair_blank, hpairs, lookupPair_cons, if_pos rfl]
      rfl
    · have hsame : lookupPair key (overwritten r.toList) =
          lookupPair key (r.toList.map fun q => (q.1, [])) := by
        rw [hpairs, overwritten, List.map_cons, lookupPair_cons, lookupPair_cons, if_neg hk, if_neg hk]
      rw [hsame]
      rcases hfound : lookupPair key (r.toList.map fun q => (q.1, ([] : Bytes))) with _ | y
      · rw [hfound, Option.none_or, Option.or_none]
      · obtain ⟨q, hq, hkey⟩ := List.mem_map.mp (pair_mem_of_lookupPair hfound)
        have hle : k ≤ key := by
          have := hright q hq
          rwa [(Prod.mk.inj hkey).1] at this
        rw [hnone hle, Option.none_or, Option.or_none]

/-- The keys of a tree under its name. -/
theorem lookupPair_prependStoreKey (storeKey key : Bytes) (pairs : List (Bytes × Bytes)) :
    lookupPair (prependStoreKey storeKey key) (pairs.map fun p => (prependStoreKey storeKey p.1, p.2)) =
      lookupPair key pairs := by
  induction pairs with
  | nil => rfl
  | cons p pairs ih =>
    rw [List.map_cons, lookupPair_cons, lookupPair_cons, ih]
    simp [prependStoreKey]

theorem height_le_of_mem_exportNodes {t : Node Bytes Bytes} {n : ExportNode} (h : n ∈ exportNodes t) :
    n.height ≤ 127 := by
  induction t with
  | leaf v k x =>
    obtain rfl := List.mem_singleton.mp h
    exact Int.natCast_nonneg 127
  | branch ht s v k l r ihl ihr =>
    simp only [exportNodes, List.mem_append, List.mem_singleton] at h
    rcases h with (h | h) | rfl
    · exact ihl h
    · exact ihr h
    · dsimp only
      exact int8_le ht

/-! ### The entries of the stream -/

def treeEntries (t : NamedTree) : List ImportEntry :=
  (treeNodes t.root).map fun n => ⟨t.name, n.key, n.value.getD []⟩

/-- The nodes of a tree are sent under its name. -/
theorem readSnapshotEntries_nodes {storeKey : Bytes} (hs : storeKey ≠ []) {nodes : List ExportNode}
    (hn : ∀ n ∈ nodes, n.height ≤ 127) (stream : List (Except Unit SnapshotItem)) :
    (readSnapshotEntries storeKey (nodes.map (fun n => .ok (exportItem n)) ++ stream)).1 =
      nodes.map (fun n => ⟨storeKey, n.key, n.value.getD []⟩) ++ (readSnapshotEntries storeKey stream).1 := by
  induction nodes with
  | nil => rfl
  | cons n nodes ih =>
    have hh := hn n (by simp)
    rw [List.map_cons, List.cons_append, exportItem, readSnapshotEntries, if_neg hs, if_neg (not_lt.mpr hh)]
    dsimp only
    rw [ih fun m hm => hn m (by simp [hm])]
    rfl

theorem height_le_of_mem_treeNodes {root : Option (Node Bytes Bytes)} {n : ExportNode}
    (h : n ∈ treeNodes root) : n.height ≤ 127 := by
  cases root with
  | none => cases h
  | some t => exact height_le_of_mem_exportNodes h

theorem readSnapshotEntries_snapshotStream (storeKey : Bytes) (trees : List NamedTree) :
    (readSnapshotEntries storeKey (snapshotStream trees)).1 = (reached trees).flatMap treeEntries := by
  induction trees generalizing storeKey with
  | nil => rfl
  | cons t trees ih =>
    rw [snapshotStream, List.flatMap_cons, List.cons_append, readSnapshotEntries, ← snapshotStream, reached]
    split_ifs with hcut
    · obtain ⟨hname, hroot⟩ := hcut
      obtain ⟨root, hroot⟩ := Option.ne_none_iff_exists'.mp hroot
      obtain ⟨n, nodes, hnodes⟩ : ∃ n nodes, exportNodes root = n :: nodes :=
        List.exists_cons_of_ne_nil (by cases root <;> simp [exportNodes])
      simp [hname, hroot, treeNodes, hnodes, exportItem, readSnapshotEntries]
    · rw [List.flatMap_cons]
      by_cases hname : t.name = []
      · have hroot : t.root = none := by
          by_contra h
          exact hcut ⟨hname, h⟩
        simp [treeEntries, treeNodes, hroot, ih]
      · rw [readSnapshotEntries_nodes hname fun n hn => height_le_of_mem_treeNodes hn, ih]
        rfl

/-- Lists that agree on the keys of a tree agree under its name. -/
theorem lookupPair_congr {storeKey : Bytes} {l r : List (Bytes × Bytes)}
    (h : ∀ key, lookupPair key l = lookupPair key r) (key : Bytes) :
    lookupPair key (l.map fun p => (prependStoreKey storeKey p.1, p.2)) =
      lookupPair key (r.map fun p => (prependStoreKey storeKey p.1, p.2)) := by
  by_cases hkey : ∃ k, prependStoreKey storeKey k = key
  · obtain ⟨k, rfl⟩ := hkey
    rw [lookupPair_prependStoreKey, lookupPair_prependStoreKey, h]
  · have hnone : ∀ pairs : List (Bytes × Bytes),
        lookupPair key (pairs.map fun p => (prependStoreKey storeKey p.1, p.2)) = none := by
      intro pairs
      refine lookupPair_eq_none fun p hp hpkey => hkey ?_
      obtain ⟨q, -, rfl⟩ := List.mem_map.mp hp
      exact ⟨q.1, hpkey⟩
    rw [hnone, hnone]

theorem lookupPair_treeEntries (t : NamedTree) (key : Bytes) :
    lookupPair key ((treeEntries t).map entryPair).reverse = lookupPair key t.shown := by
  have hentries : ((treeEntries t).map entryPair).reverse =
      ((treeNodes t.root).map nodePair).reverse.map fun p => (prependStoreKey t.name p.1, p.2) := by
    rw [treeEntries, List.map_map, ← List.map_reverse, ← List.map_reverse, List.map_map]
    rfl
  rw [hentries, NamedTree.shown]
  refine lookupPair_congr (fun key => ?_) key
  obtain ⟨name, root, hordered⟩ := t
  cases root with
  | none => rfl
  | some t => exact lookupPair_exportNodes (hordered t rfl) key

/-- What the database holds after the entries of the stream. -/
theorem lookupPair_entries (trees : List NamedTree) (key : Bytes) :
    lookupPair key (((reached trees).flatMap treeEntries).map entryPair).reverse =
      lookupPair key (shown trees) := by
  rw [shown]
  induction reached trees with
  | nil => rfl
  | cons t trees ih =>
    rw [List.flatMap_cons, List.map_append, List.reverse_append, lookupPair_append, ih, lookupPair_treeEntries,
      List.reverse_cons, List.flatMap_append, lookupPair_append]
    simp

/-! ### Names of stores -/

/-- The names are those of different stores, not empty and without a slash. -/
structure WellNamed (trees : List NamedTree) : Prop where
  nodup : (trees.map NamedTree.name).Nodup
  name : ∀ t ∈ trees, t.name ≠ [] ∧ PlainName t.name

theorem reached_eq {trees : List NamedTree} (h : ∀ t ∈ trees, t.name ≠ []) : reached trees = trees := by
  induction trees with
  | nil => rfl
  | cons t trees ih =>
    rw [reached, if_neg fun hcut => h t (by simp) hcut.1, ih fun t' ht' => h t' (by simp [ht'])]

/-- A tree of another name holds no key of this one. -/
theorem ne_of_mem_shown {t t' : NamedTree} (ht : PlainName t.name) (ht' : PlainName t'.name)
    (hne : t'.name ≠ t.name) {p : Bytes × Bytes} (hp : p ∈ t'.shown) (key : Bytes) :
    p.1 ≠ prependStoreKey t.name key := by
  obtain ⟨q, -, rfl⟩ := List.mem_map.mp hp
  exact fun h => hne (prependStoreKey_inj ht' ht h).1

theorem lookupPair_flatMap_shown {trees : List NamedTree} (hnodup : (trees.map NamedTree.name).Nodup)
    (hname : ∀ t ∈ trees, PlainName t.name) {t : NamedTree} (ht : t ∈ trees) (key : Bytes) :
    lookupPair (prependStoreKey t.name key) (trees.flatMap NamedTree.shown) =
      lookupPair (prependStoreKey t.name key) t.shown := by
  induction trees with
  | nil => cases ht
  | cons t' trees ih =>
    obtain ⟨hfresh, hnodup⟩ := List.nodup_cons.mp hnodup
    have hother : ∀ t₁ ∈ trees, t₁.name ≠ t'.name := fun t₁ ht₁ heq => hfresh (heq ▸ List.mem_map_of_mem ht₁)
    rw [List.flatMap_cons]
    rcases List.mem_cons.mp ht with rfl | ht
    · refine lookupPair_append_left fun p hp => ?_
      obtain ⟨t₁, ht₁, hp⟩ := List.mem_flatMap.mp hp
      exact ne_of_mem_shown (hname t (by simp)) (hname t₁ (by simp [ht₁])) (hother t₁ ht₁) hp key
    · rw [lookupPair_append_right fun p hp => ne_of_mem_shown (hname t (by simp [ht])) (hname t' (by simp))
        (hother t ht).symm hp key]
      exact ih hnodup (fun t₁ ht₁ => hname t₁ (by simp [ht₁])) ht

/-- No other tree spells a key of this one. -/
theorem lookupPair_shown {trees : List NamedTree} (h : WellNamed trees) {t : NamedTree} (ht : t ∈ trees)
    (key : Bytes) :
    lookupPair (prependStoreKey t.name key) (shown trees) = lookupPair key (overwritten t.pairs) := by
  have hnodup : (trees.reverse.map NamedTree.name).Nodup := by
    rw [List.map_reverse, List.nodup_reverse]
    exact h.nodup
  rw [shown, reached_eq fun t ht => (h.name t ht).1,
    lookupPair_flatMap_shown hnodup (fun t ht => (h.name t (List.mem_reverse.mp ht)).2)
      (List.mem_reverse.mpr ht), NamedTree.shown, lookupPair_prependStoreKey]

/-- Nothing is lost if there was nothing but the first value. -/
theorem overwritten_iff {pairs : List (Bytes × Bytes)} (h : Sorted pairs) :
    (∀ key, lookupPair key (overwritten pairs) = lookupPair key pairs) ↔ ∀ p ∈ pairs.tail, p.2 = [] := by
  cases pairs with
  | nil => simp [overwritten]
  | cons p pairs =>
    obtain ⟨k, x⟩ := p
    obtain ⟨hp, hpairs⟩ := List.pairwise_cons.mp h
    simp only [overwritten, List.tail_cons, lookupPair_cons, lookupPair_blank]
    constructor
    · intro hsame q hq
      have hq' := hsame q.1
      rw [if_neg (hp q hq).ne', if_neg (hp q hq).ne', (mem_iff_lookupPair hpairs q.1 q.2).mp hq] at hq'
      exact (Option.some.inj hq').symm
    · intro hempty key
      congr 1
      cases hfound : lookupPair key pairs with
      | none => rfl
      | some y =>
        obtain rfl : y = [] := hempty _ (pair_mem_of_lookupPair hfound)
        rfl

theorem NamedTree.sorted (t : NamedTree) : Sorted t.pairs := by
  obtain ⟨name, root, hordered⟩ := t
  cases root with
  | none => exact List.Pairwise.nil
  | some t => exact (hordered t rfl).sorted

/-- For every list of trees, the restored database reads the trees back if and only if it finds the leaf of a
key among what the stream leaves of all trees. Under proper names this is so if and only if every leaf of
a tree but the first has an empty value. -/
theorem restored_iff {height : ℤ} (hh : 0 ≤ height ∧ height < 2 ^ 63) (trees : List NamedTree) :
    let s : Store R.toRocksDB := (restoreVersionDBCmd height (snapshotStream trees) (.newStore R.new)).store
    (Restored height trees s ↔
      ∀ t ∈ trees, ∀ key, lookupPair (prependStoreKey t.name key) (shown trees) = lookupPair key t.pairs) ∧
    (WellNamed trees → (Restored height trees s ↔ ∀ t ∈ trees, ∀ p ∈ t.pairs.tail, p.2 = [])) := by
  intro s
  have hread : ∀ (storeKey key : Bytes) (version : Option ℤ), (∀ v ∈ version, height ≤ v ∧ v < 2 ^ 63) →
      s.getAtVersion storeKey key version = lookupPair (prependStoreKey storeKey key) (shown trees) := by
    intro storeKey key version hv
    rw [← lookupPair_entries, ← readSnapshotEntries_snapshotStream []]
    exact getAtVersion_importEntries hh _ storeKey key hv
  have hiff : Restored height trees s ↔
      ∀ t ∈ trees, ∀ key, lookupPair (prependStoreKey t.name key) (shown trees) = lookupPair key t.pairs := by
    constructor
    · intro h t ht key
      rw [← hread t.name key none (by simp), h t ht key none (by simp)]
    · intro h t ht key version hv
      rw [hread t.name key version hv, h t ht key]
  refine ⟨hiff, fun hnames => hiff.trans ?_⟩
  refine forall₂_congr fun t ht => ?_
  simp only [lookupPair_shown hnames ht]
  exact overwritten_iff t.sorted

/-- Two leaves of one store: the second is read with an empty value. -/
theorem second_leaf_lost :
    let tree : NamedTree := ⟨[97], some (.branch 1 2 1 [2] (.leaf 1 [1] [10]) (.leaf 1 [2] [20])),
      by simp [Node.Ordered, Below, Node.toList, Node.minKey]; decide⟩
    let s := (restoreVersionDBCmd 7 (snapshotStream [tree]) (.newStore listPlainRocksDB.new)).store
    lookupPair [2] tree.pairs = some [20] ∧ s.getAtVersion [97] [2] (some 7) = some [] ∧
      ¬Restored 7 [tree] s := by
  intro tree s
  have hread : s.getAtVersion [97] [2] (some 7) = some [] := by decide +kernel
  refine ⟨rfl, hread, fun h => ?_⟩
  have hleaf := h tree (by simp) [2] (some 7) (by simp)
  rw [hread] at hleaf
  cases hleaf

/-- One store with a leaf, one whose second leaf is empty. -/
theorem restored_two_stores :
    let trees : List NamedTree := [⟨[97], some (.leaf 1 [1] [10]), by simp [Node.Ordered]⟩,
      ⟨[98], some (.branch 1 2 1 [2] (.leaf 1 [1] [10]) (.leaf 1 [2] [])),
        by simp [Node.Ordered, Below, Node.toList, Node.minKey]; decide⟩]
    Restored 7 trees (restoreVersionDBCmd 7 (snapshotStream trees) (.newStore listPlainRocksDB.new)).store := by
  intro trees
  have hnames : WellNamed trees := ⟨by decide, by simp [trees, PlainName]⟩
  refine ((restored_iff (by decide) trees).2 hnames).mpr ?_
  simp [trees, NamedTree.pairs, Node.toList]

end IavlStore.VersionDb
