import IavlStore.Heap.Contents
import IavlStore.Multi.UpgradeOrder

/-! The contents of the stores of a multitree. Change sets act on the pairs of the store that they
name, saving a version and the initial version leave all pairs as they are, and an upgrade leaves
the pairs of every store alone that it does not delete or rename; a store that is added is empty. -/

namespace IavlStore.Multi.MultiTree

open IavlStore.Base.Encoding IavlStore.Base.SortedPairs IavlStore.Tree
open IavlStore.Heap (pairAfter)

variable {N : Type} [LinearOrder N] {t t' : MultiTree N} {name : N}

/-- The pairs of a store in the order of their keys. -/
def pairsOf (t : MultiTree N) (name : N) : List (Bytes × Bytes) := ((t.treeByName name).map Tree.pairs).getD []

/-- The trees are found under their names, and each of them is well formed. -/
structure Stocked (t : MultiTree N) : Prop where
  coherent : t.Coherent
  inv : ∀ e ∈ t.trees, e.tree.Inv

theorem Coherent.treeByName_eq_some (h : t.Coherent) {tree : Tree} :
    t.treeByName name = some tree ↔ ⟨name, tree⟩ ∈ t.trees := by
  refine ⟨h.treeByName_mem, fun hmem => ?_⟩
  obtain ⟨i, hi, hget⟩ := List.getElem_of_mem hmem
  have hname : (name, i) ∈ (t.trees.map NamedTree.name).zipIdx := by
    rw [List.mk_mem_zipIdx_iff_getElem?, List.getElem?_map, List.getElem?_eq_getElem hi, hget]
    rfl
  have hlookup : lookupPair name t.treesByName = some i := by
    obtain ⟨j, hj⟩ := exists_lookupPair_of_mem (List.mem_map_of_mem (f := Prod.fst) hname)
    have hj' := List.mk_mem_zipIdx_iff_getElem?.mp (pair_mem_of_lookupPair hj)
    have hi' := List.mk_mem_zipIdx_iff_getElem?.mp hname
    have hij : j = i := (List.getElem?_inj (List.getElem?_eq_some_iff.mp hj').1 h.nodup).mp (hj'.trans hi'.symm)
    rw [h.index, ← hij]
    exact hj
  rw [treeByName, hlookup, Option.bind_some, List.getElem?_eq_getElem hi, hget]
  rfl

theorem Coherent.pairsOf_of_mem (h : t.Coherent) {tree : Tree} (hmem : ⟨name, tree⟩ ∈ t.trees) :
    t.pairsOf name = tree.pairs := by
  rw [pairsOf, h.treeByName_eq_some.mpr hmem]
  rfl

theorem Coherent.pairsOf_of_not_mem (h : t.Coherent) (hname : name ∉ t.names) : t.pairsOf name = [] := by
  have hnone : t.treeByName name = none := by
    have hlookup : lookupPair name t.treesByName = none := by
      rw [h.index]
      exact lookupPair_zipIdx_eq_none hname
    rw [treeByName, hlookup]
    rfl
  rw [pairsOf, hnone]
  rfl

omit [LinearOrder N] in
theorem exists_tree (h : name ∈ t.names) : ∃ tree, ⟨name, tree⟩ ∈ t.trees := by
  obtain ⟨e, he, rfl⟩ := List.mem_map.mp h
  exact ⟨e.tree, he⟩

theorem Stocked.sorted (h : t.Stocked) (name : N) : Sorted (t.pairsOf name) := by
  by_cases hname : name ∈ t.names
  · obtain ⟨tree, hmem⟩ := exists_tree hname
    rw [h.coherent.pairsOf_of_mem hmem]
    exact (h.inv _ hmem).sorted
  · rw [h.coherent.pairsOf_of_not_mem hname]
    exact List.Pairwise.nil

/-- Trees with the same pairs, and new trees without any. -/
theorem Coherent.pairsOf_congr (h : t.Coherent) (h' : t'.Coherent)
    (hkeep : ∀ tree, ⟨name, tree⟩ ∈ t.trees → ∃ tree', ⟨name, tree'⟩ ∈ t'.trees ∧ tree'.pairs = tree.pairs)
    (hnew : name ∉ t.names → ∀ tree', ⟨name, tree'⟩ ∈ t'.trees → tree'.pairs = []) :
    t'.pairsOf name = t.pairsOf name := by
  by_cases hname : name ∈ t.names
  · obtain ⟨tree, hmem⟩ := exists_tree hname
    obtain ⟨tree', hmem', heq⟩ := hkeep tree hmem
    rw [h.pairsOf_of_mem hmem, h'.pairsOf_of_mem hmem', heq]
  · rw [h.pairsOf_of_not_mem hname]
    by_cases hname' : name ∈ t'.names
    · obtain ⟨tree', hmem'⟩ := exists_tree hname'
      rw [h'.pairsOf_of_mem hmem', hnew hname tree' hmem']
    · exact h'.pairsOf_of_not_mem hname'

/-! ### Change sets -/

theorem Stocked.applyAll (h : t.Stocked) (f : N → ChangeSet) : (t.applyAll f).Stocked := by
  refine ⟨h.coherent.applyAll f, fun e he => ?_⟩
  obtain ⟨d, hd, rfl⟩ := List.mem_map.mp he
  exact (h.inv d hd).applyChangeSet (f d.name)

/-- A key of a store has the value that the last change of it gave. -/
theorem Stocked.lookup_applyAll (h : t.Stocked) (f : N → ChangeSet) (hname : name ∈ t.names ∨ f name = [])
    (key : Bytes) :
    lookupPair key ((t.applyAll f).pairsOf name) = (f name).foldl (pairAfter key) (lookupPair key (t.pairsOf name)) := by
  by_cases hmem : name ∈ t.names
  · obtain ⟨tree, htree⟩ := exists_tree hmem
    have htree' : ⟨name, tree.applyChangeSet (f name)⟩ ∈ (t.applyAll f).trees := List.mem_map.mpr ⟨_, htree, rfl⟩
    rw [h.coherent.pairsOf_of_mem htree, (h.coherent.applyAll f).pairsOf_of_mem htree',
      Heap.lookupPair_applyChangeSet (h.inv _ htree)]
  · have hnone : name ∉ (t.applyAll f).names := by rwa [names_applyAll]
    rw [h.coherent.pairsOf_of_not_mem hmem, (h.coherent.applyAll f).pairsOf_of_not_mem hnone,
      hname.resolve_left hmem]
    rfl

/-! ### Saving and the initial version -/

/-- A change of the trees that keeps their names and their pairs. -/
theorem Stocked.map_trees (h : t.Stocked) (h' : t'.Coherent) {g : NamedTree N → NamedTree N}
    (htrees : t'.trees = t.trees.map g) (hname : ∀ e, (g e).name = e.name)
    (hg : ∀ e ∈ t.trees, (g e).tree.Inv ∧ (g e).tree.pairs = e.tree.pairs) :
    t'.Stocked ∧ ∀ name, t'.pairsOf name = t.pairsOf name := by
  refine ⟨⟨h', fun e' he' => ?_⟩, fun name => ?_⟩
  · rw [htrees] at he'
    obtain ⟨e, he, rfl⟩ := List.mem_map.mp he'
    exact (hg e he).1
  · apply h.coherent.pairsOf_congr h'
    · intro tree hmem
      refine ⟨(g ⟨name, tree⟩).tree, ?_, (hg _ hmem).2⟩
      rw [htrees, List.mem_map]
      exact ⟨_, hmem, congrArg (NamedTree.mk · (g ⟨name, tree⟩).tree) (hname _)⟩
    · intro hnot tree' hmem'
      rw [htrees] at hmem'
      obtain ⟨e, he, heq⟩ := List.mem_map.mp hmem'
      exact absurd (List.mem_map.mpr ⟨e, he, (hname e).symm.trans (congrArg NamedTree.name heq)⟩) hnot

omit [LinearOrder N] in
theorem saveTrees_eq_map {trees trees' : List (NamedTree N)} (h : saveTrees trees = .ok trees') :
    trees' = trees.map (fun e => { e with tree := { e.tree with version := next e.tree.version } }) ∧
      ∀ e ∈ trees, next e.tree.version ≤ maxInt64 := by
  induction trees generalizing trees' with
  | nil =>
    cases h
    simp
  | cons e trees ih =>
    rw [saveTrees] at h
    rcases he : e.tree.saveVersion with _ | tree <;> simp only [he, reduceCtorEq] at h
    rcases hr : saveTrees trees with err | rest <;> rw [hr] at h <;> cases h
    obtain ⟨hle, rfl⟩ := Tree.saveVersion_eq_some he
    obtain ⟨rfl, hrest⟩ := ih hr
    exact ⟨rfl, List.forall_mem_cons.mpr ⟨hle, hrest⟩⟩

theorem Stocked.saveVersion (h : t.Stocked) {sha256 : Bytes → Bytes} {update : Bool}
    (hs : t.saveVersion sha256 update = .ok t') : t'.Stocked ∧ ∀ name, t'.pairsOf name = t.pairsOf name := by
  have hcoherent := h.coherent.saveVersion hs
  obtain ⟨trees, htrees, heq⟩ := saveVersion_eq_ok hs
  obtain ⟨hmap, hle⟩ := saveTrees_eq_map htrees
  have htrees' : t'.trees = trees := by
    rw [heq]
    cases update <;> rfl
  apply h.map_trees hcoherent (htrees'.trans hmap) (fun _ => rfl)
  intro e he
  have hsave : e.tree.saveVersion = some { e.tree with version := next e.tree.version } :=
    if_neg (not_lt.mpr (hle e he))
  exact ⟨((h.inv e he).saveVersion hsave).1, rfl⟩

/-- The initial version is set while no tree holds a node. -/
theorem Stocked.assignInitialVersion (h : t.Stocked) (iv : ℕ) (hempty : ∀ e ∈ t.trees, e.tree.root = none) :
    (t.assignInitialVersion iv).Stocked ∧ ∀ name, (t.assignInitialVersion iv).pairsOf name = t.pairsOf name := by
  have hcoherent : (t.assignInitialVersion iv).Coherent := by
    have hnames := names_assignInitialVersion iv t
    refine ⟨by rw [hnames]; exact h.coherent.sorted, ?_⟩
    have hindex := h.coherent.index
    rw [positions] at hindex ⊢
    rw [names, names] at hnames
    rw [hnames]
    exact hindex
  have hroot : ∀ e ∈ t.trees, (setInitialVersionTree iv e.tree).root = none := by
    intro e he
    unfold setInitialVersionTree
    split_ifs <;> exact hempty e he
  by_cases hiv : 1 < iv
  · apply h.map_trees hcoherent (g := fun e => { e with tree := setInitialVersionTree iv e.tree }) (if_pos hiv)
      (fun _ => rfl)
    intro e he
    refine ⟨fun n hn => absurd hn (by simp [hroot e he]), ?_⟩
    rw [Tree.pairs, Tree.pairs, hroot e he, hempty e he]
  · exact h.map_trees hcoherent (g := id) ((if_neg hiv).trans (List.map_id _).symm) (fun _ => rfl)
      fun e he => ⟨h.inv e he, rfl⟩

/-! ### Upgrades -/

/-- Neither deleted nor renamed, nor the new name of another store. -/
def Spares (name : N) (u : TreeNameUpgrade N) : Prop :=
  name ∉ u.renameFrom ∧ (u.name = name → u.delete = false ∧ u.renameFrom = none)

instance (name : N) (u : TreeNameUpgrade N) : Decidable (Spares name u) :=
  inferInstanceAs (Decidable (¬ name ∈ u.renameFrom ∧ (u.name = name → u.delete = false ∧ u.renameFrom = none)))

/-- An upgrade keeps a store that it spares, and may add an empty one. -/
theorem mem_upgradeTrees {v : ℕ} {u : TreeNameUpgrade N} {trees trees' : List (NamedTree N)} (hu : Spares name u)
    (h : upgradeTrees v u trees = .ok trees') (tree : Tree) :
    ⟨name, tree⟩ ∈ trees' ↔ ⟨name, tree⟩ ∈ trees ∨ u.name = name ∧ tree = newWithInitialVersion v := by
  obtain ⟨hold, hadd⟩ := hu
  unfold upgradeTrees at h
  split_ifs at h with hdel
  · have hne : u.name ≠ name := fun heq => absurd (hadd heq).1 (by simp [hdel])
    rcases hi : trees.findIdx? (fun e => e.name = u.name) with _ | i <;> rw [hi] at h <;> cases h
    obtain ⟨l₁, e, l₂, rfl, rfl, he⟩ := split_of_findIdx hi
    have hother : (⟨name, tree⟩ : NamedTree N) ≠ e := fun heq => hne (he.symm.trans (congrArg NamedTree.name heq).symm)
    rw [(swapDelete_perm l₁ l₂ e).mem_iff]
    simp [hne, hother]
  · rcases hr : u.renameFrom with _ | old
    · rw [hr] at h
      cases h
      simp [eq_comm]
    · have hne : u.name ≠ name := fun heq => absurd (hadd heq).2 (by simp [hr])
      simp only [hr] at h
      rcases hi : trees.findIdx? (fun e => e.name = old) with _ | i <;> rw [hi] at h <;> cases h
      obtain ⟨l₁, e, l₂, rfl, rfl, he⟩ := split_of_findIdx hi
      have hneold : name ≠ old := fun heq => hold (by rw [hr, heq]; rfl)
      have hother : (⟨name, tree⟩ : NamedTree N) ≠ e := fun heq => hneold ((congrArg NamedTree.name heq).trans he)
      have hrenamed : (⟨name, tree⟩ : NamedTree N) ≠ { e with name := u.name } :=
        fun heq => hne (congrArg NamedTree.name heq).symm
      rw [modify_length_append]
      simp [hne, hother, hrenamed]

theorem mem_upgradeLoop {v : ℕ} {us : List (TreeNameUpgrade N)} {trees trees' : List (NamedTree N)}
    (hus : ∀ u ∈ us, Spares name u) (h : upgradeLoop v us trees = (trees', none)) (tree : Tree) :
    (⟨name, tree⟩ ∈ trees → ⟨name, tree⟩ ∈ trees') ∧
      (⟨name, tree⟩ ∈ trees' → ⟨name, tree⟩ ∈ trees ∨ tree = newWithInitialVersion v) := by
  induction us generalizing trees with
  | nil =>
    cases h
    exact ⟨id, .inl⟩
  | cons u us ih =>
    rw [upgradeLoop] at h
    rcases hs : upgradeTrees v u trees with e | trees₁ <;> rw [hs] at h
    · cases h
    · obtain ⟨hkeep, hnew⟩ := ih (fun u hu => hus u (by simp [hu])) h
      have hmem := mem_upgradeTrees (hus u (by simp)) hs tree
      refine ⟨fun hin => hkeep (hmem.mpr (.inl hin)), fun hin => ?_⟩
      rcases hnew hin with hin | hin
      · exact (hmem.mp hin).imp_right And.right
      · exact .inr hin

theorem Stocked.applyUpgrades (h : t.Stocked) {us : List (TreeNameUpgrade N)} (hu : t.applyUpgrades us = (t', none)) :
    t'.Stocked ∧ ∀ name, (∀ u ∈ us, Spares name u) → t'.pairsOf name = t.pairsOf name := by
  have hcoherent := h.coherent.applyUpgrades hu
  unfold MultiTree.applyUpgrades at hu
  split_ifs at hu with hnil
  · cases hu
    exact ⟨h, fun _ _ => rfl⟩
  · rcases hl : upgradeLoop (nextVersion t.version t.initialVersion) us t.trees with ⟨trees, _ | err⟩ <;> rw [hl] at hu
    · have htrees : t'.trees.Perm trees := by
        rw [← (Prod.mk.inj hu).1]
        exact List.perm_insertionSort _ trees
      have hnew : ∀ v, (newWithInitialVersion v).root = none := by
        intro v
        unfold newWithInitialVersion
        split_ifs <;> rfl
      refine ⟨⟨hcoherent, fun e he => ?_⟩, fun name hspare => ?_⟩
      · have he' : e ∈ (upgradeLoop (nextVersion t.version t.initialVersion) us t.trees).1 := by
          rw [hl]
          exact htrees.mem_iff.mp he
        rcases tree_of_mem_upgradeLoop e he' with ⟨d, hd, hde⟩ | hnewTree
        · exact hde ▸ h.inv d hd
        · intro n hn
          exact absurd hn (by simp [hnewTree, hnew])
      · apply h.coherent.pairsOf_congr hcoherent
        · intro tree hmem
          exact ⟨tree, htrees.mem_iff.mpr ((mem_upgradeLoop hspare hl tree).1 hmem), rfl⟩
        · intro hname tree hmem
          rcases (mem_upgradeLoop hspare hl tree).2 (htrees.mem_iff.mp hmem) with hin | rfl
          · exact absurd (List.mem_map.mpr ⟨_, hin, rfl⟩) hname
          · rw [Tree.pairs, hnew]
    · cases (Prod.mk.inj hu).2

end IavlStore.Multi.MultiTree
