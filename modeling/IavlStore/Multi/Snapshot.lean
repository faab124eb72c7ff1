import IavlStore.Multi.Apply

/-! Snapshot directories of a multitree: the commit info, the initial version and one
directory for each tree. Loading sorts the trees by name and rejects negative versions.
What a committed multitree writes is loaded as that multitree. -/

namespace IavlStore.Multi

open IavlStore.Base.Encoding

/-- A snapshot directory. A tree directory is the tree it is opened as. -/
structure SnapshotDir (N : Type) where
  commitInfo : CommitInfo N
  initialVersion : ℕ
  trees : List (NamedTree N)
  deriving DecidableEq

variable {N : Type} [LinearOrder N]

def MultiTree.writeSnapshot (t : MultiTree N) : SnapshotDir N :=
  ⟨t.lastCommitInfo, t.initialVersion, t.trees⟩

/-- `none` when the metadata holds a negative version. -/
def loadMultiTree (dir : SnapshotDir N) : Option (MultiTree N) :=
  if maxInt64 < dir.commitInfo.version ∨ maxInt64 < dir.initialVersion then none
  else
    let trees := MultiTree.sortTrees dir.trees
    let t : MultiTree N := ⟨0, trees, positions trees, dir.commitInfo⟩
    some (t.assignInitialVersion dir.initialVersion)

theorem loadMultiTree_fields {dir : SnapshotDir N} {t : MultiTree N} (h : loadMultiTree dir = some t) :
    t.version = dir.commitInfo.version ∧ t.initialVersion = dir.initialVersion := by
  unfold loadMultiTree at h
  split_ifs at h
  rw [← Option.some.inj h]
  exact ⟨rfl, rfl⟩

namespace MultiTree

/-- A multitree that can be loaded again: the initial version was already given to its
trees, and no version is negative. -/
structure Loadable (t : MultiTree N) : Prop where
  coherent : t.Coherent
  version_le : t.version ≤ maxInt64
  initialVersion_le : t.initialVersion ≤ maxInt64
  assigned : t.initialVersion ≤ 1 ∨ ∀ e ∈ t.trees, 0 < e.tree.version

theorem Coherent.sortTrees {t : MultiTree N} (h : t.Coherent) : sortTrees t.trees = t.trees :=
  List.Pairwise.insertionSort_eq ((List.pairwise_map.mp h.sorted).imp fun hlt => hlt.le)

omit [LinearOrder N] in
theorem assignInitialVersion_trees {iv : ℕ} {trees : List (NamedTree N)}
    (h : iv ≤ 1 ∨ ∀ e ∈ trees, 0 < e.tree.version) :
    (if 1 < iv then trees.map fun e => { e with tree := setInitialVersionTree iv e.tree } else trees) =
      trees := by
  split_ifs with hiv
  · rcases h with h | h
    · omega
    · conv_rhs => rw [← List.map_id trees]
      refine List.map_congr_left fun e he => ?_
      rw [setInitialVersionTree, if_pos (h e he)]
      rfl
  · rfl

/-- What a loadable multitree writes is loaded as that multitree. -/
theorem Loadable.loadMultiTree_writeSnapshot {t : MultiTree N} (h : t.Loadable) :
    loadMultiTree t.writeSnapshot = some t := by
  have hneg : ¬ (maxInt64 < t.writeSnapshot.commitInfo.version ∨
      maxInt64 < t.writeSnapshot.initialVersion) := by
    rintro (hlt | hlt)
    · exact absurd h.version_le (not_le.mpr hlt)
    · exact absurd h.initialVersion_le (not_le.mpr hlt)
  have hs : MultiTree.sortTrees t.writeSnapshot.trees = t.trees := h.coherent.sortTrees
  rw [loadMultiTree, if_neg hneg]
  simp only [hs, assignInitialVersion, ← h.coherent.index]
  have ha : (if 1 < t.writeSnapshot.initialVersion then
      t.trees.map fun e => { e with tree := setInitialVersionTree t.writeSnapshot.initialVersion e.tree }
    else t.trees) = t.trees := assignInitialVersion_trees h.assigned
  rw [ha]
  rfl

/-! ### All trees are one version behind -/

/-- Every tree will be saved at the next version of the multitree. -/
def Level (t : MultiTree N) : Prop :=
  ∀ e ∈ t.trees, e.tree.version + 1 = nextVersion t.version t.initialVersion

omit [LinearOrder N] in
theorem Level.applyAll {t : MultiTree N} (h : t.Level) (f : N → ChangeSet) : (t.applyAll f).Level := by
  intro e he
  obtain ⟨d, hd, rfl⟩ := List.mem_map.mp he
  simpa using h d hd

theorem version_newWithInitialVersion {v : ℕ} (hv : 1 ≤ v) :
    (newWithInitialVersion v).version + 1 = v := by
  unfold newWithInitialVersion
  split_ifs <;> simp only [Tree.newEmptyTree] <;> omega

theorem one_le_nextVersion {v : ℕ} (iv : ℕ) (hv : v ≤ maxInt64) : 1 ≤ nextVersion v iv := by
  unfold nextVersion
  split_ifs with h
  · omega
  · rw [next_eq hv]; omega

theorem mem_swapDelete {α : Type} {l : List α} {i : ℕ} {x : α} (h : x ∈ swapDelete l i) : x ∈ l := by
  unfold swapDelete at h
  rcases hl : l.getLast? with _ | y
  · rw [hl] at h; exact h
  · rw [hl] at h
    rcases List.mem_or_eq_of_mem_set (List.mem_of_mem_dropLast h) with h | rfl
    · exact h
    · exact List.mem_of_getLast? hl

/-- An upgrade keeps trees or adds a new one. -/
theorem tree_of_mem_upgradeTrees {v : ℕ} {u : TreeNameUpgrade N} {trees trees' : List (NamedTree N)}
    (h : upgradeTrees v u trees = .ok trees') :
    ∀ e ∈ trees', (∃ d ∈ trees, d.tree = e.tree) ∨ e.tree = newWithInitialVersion v := by
  intro e he
  unfold upgradeTrees at h
  split_ifs at h with hdel
  · rcases hi : trees.findIdx? fun d => d.name = u.name with _ | i
    · rw [hi] at h; exact nomatch h
    · rw [hi] at h
      obtain rfl := Except.ok.inj h
      exact .inl ⟨e, mem_swapDelete he, rfl⟩
  · rcases hr : u.renameFrom with _ | old
    · rw [hr] at h
      obtain rfl := Except.ok.inj h
      rcases List.mem_append.mp he with he | he
      · exact .inl ⟨e, he, rfl⟩
      · exact .inr (by rw [List.mem_singleton.mp he])
    · rw [hr] at h
      rcases hi : trees.findIdx? fun d => d.name = old with _ | i
      · simp only [hi] at h; exact nomatch h
      · simp only [hi] at h
        obtain rfl := Except.ok.inj h
        obtain ⟨j, hj, rfl⟩ := List.mem_iff_getElem.mp he
        rw [List.length_modify] at hj
        refine .inl ⟨trees[j], List.getElem_mem hj, ?_⟩
        rw [List.getElem_modify]
        split_ifs <;> rfl

theorem tree_of_mem_upgradeLoop {v : ℕ} {us : List (TreeNameUpgrade N)} {trees : List (NamedTree N)} :
    ∀ e ∈ (upgradeLoop v us trees).1, (∃ d ∈ trees, d.tree = e.tree) ∨ e.tree = newWithInitialVersion v := by
  induction us generalizing trees with
  | nil => exact fun e he => .inl ⟨e, he, rfl⟩
  | cons u us ih =>
    intro e he
    rw [upgradeLoop] at he
    rcases hu : upgradeTrees v u trees with err | trees'
    · rw [hu] at he
      exact .inl ⟨e, he, rfl⟩
    · rw [hu] at he
      rcases ih e he with ⟨d, hd, hde⟩ | hnew
      · rcases tree_of_mem_upgradeTrees hu d hd with ⟨d', hd', hdd⟩ | hnew
        · exact .inl ⟨d', hd', hdd.trans hde⟩
        · exact .inr (hde ▸ hnew)
      · exact .inr hnew

theorem Level.applyUpgrades {t t' : MultiTree N} (h : t.Level) (hv : t.version ≤ maxInt64)
    {us : List (TreeNameUpgrade N)} (hu : t.applyUpgrades us = (t', none)) : t'.Level := by
  unfold MultiTree.applyUpgrades at hu
  split_ifs at hu with hnil
  · rw [← (Prod.mk.inj hu).1]; exact h
  · rcases hl : upgradeLoop (nextVersion t.version t.initialVersion) us t.trees with ⟨trees, _ | err⟩
    · rw [hl] at hu
      obtain ⟨rfl, -⟩ := Prod.mk.inj hu
      intro e he
      have he' : e ∈ (upgradeLoop (nextVersion t.version t.initialVersion) us t.trees).1 := by
        rw [hl]
        exact (List.mem_insertionSort _).mp he
      rcases tree_of_mem_upgradeLoop e he' with ⟨d, hd, hde⟩ | hnew
      · exact hde ▸ h d hd
      · exact hnew ▸ version_newWithInitialVersion (one_le_nextVersion _ hv)
    · rw [hl] at hu
      exact absurd (Prod.mk.inj hu).2 (by simp)

theorem applyUpgrades_fields {t t' : MultiTree N} {us : List (TreeNameUpgrade N)} {e : Option (Error N)}
    (hu : t.applyUpgrades us = (t', e)) :
    t'.lastCommitInfo = t.lastCommitInfo ∧ t'.initialVersion = t.initialVersion := by
  unfold MultiTree.applyUpgrades at hu
  split_ifs at hu with hnil
  · rw [← (Prod.mk.inj hu).1]; exact ⟨rfl, rfl⟩
  · rcases hl : upgradeLoop (nextVersion t.version t.initialVersion) us t.trees with ⟨trees, _ | err⟩ <;>
      rw [hl] at hu <;> rw [← (Prod.mk.inj hu).1] <;> exact ⟨rfl, rfl⟩

omit [LinearOrder N] in
theorem version_of_saveTrees {v : ℕ} {trees trees' : List (NamedTree N)}
    (hlevel : ∀ e ∈ trees, e.tree.version + 1 = v) (hv : v < 2 ^ 64) (h : saveTrees trees = .ok trees') :
    ∀ e ∈ trees', e.tree.version = v ∧ v ≤ maxInt64 := by
  induction trees generalizing trees' with
  | nil => obtain rfl := Except.ok.inj h; simp
  | cons e es ih =>
    rw [saveTrees] at h
    rcases hs : e.tree.saveVersion with _ | tree
    · rw [hs] at h; cases h
    · rw [hs] at h
      rcases hr : saveTrees es with err | rest
      · rw [hr] at h; cases h
      · rw [hr] at h
        obtain rfl := Except.ok.inj h
        obtain ⟨hle, rfl⟩ := Tree.saveVersion_eq_some hs
        have hnext : next e.tree.version = v := by
          rw [next, hlevel e (by simp), Nat.mod_eq_of_lt hv]
        intro d hd
        rcases List.mem_cons.mp hd with rfl | hd
        · exact ⟨hnext, hnext ▸ hle⟩
        · exact ih (fun d hd => hlevel d (by simp [hd])) hr d hd

/-- A saved multitree is loadable and level, and has the next version. -/
theorem Loadable.saveVersion {sha256 : Bytes → Bytes} {t t' : MultiTree N} (hc : t.Coherent)
    (hl : t.Level) (hv : t.version ≤ maxInt64) (hiv : t.initialVersion ≤ maxInt64)
    (h : t.saveVersion sha256 true = .ok t') (hv' : t.trees ≠ [] ∨ t'.version ≤ maxInt64) :
    t'.Loadable ∧ t'.Level ∧ t'.version = nextVersion t.version t.initialVersion ∧
      t'.initialVersion = t.initialVersion := by
  have hcoh := hc.saveVersion h
  obtain ⟨trees, hs, rfl⟩ := saveVersion_eq_ok h
  have hlt : nextVersion t.version t.initialVersion < 2 ^ 64 := by
    unfold nextVersion
    split_ifs
    · unfold maxInt64 at hiv; omega
    · exact Nat.mod_lt _ (by decide)
  have hsaved := version_of_saveTrees hl hlt hs
  have hle : nextVersion t.version t.initialVersion ≤ maxInt64 := by
    rcases hv' with hne | hle
    · have hnames := map_name_saveTrees hs
      obtain ⟨e, he⟩ : ∃ e, e ∈ trees := by
        refine List.exists_mem_of_ne_nil trees fun hnil => hne ?_
        rw [hnil, List.map_nil] at hnames
        exact List.map_eq_nil_iff.mp hnames.symm
      exact (hsaved e he).2
    · exact hle
  have hpos := one_le_nextVersion t.initialVersion hv
  refine ⟨⟨hcoh, hle, hiv, .inr fun e he => ?_⟩, fun e he => ?_, rfl, rfl⟩
  · rw [(hsaved e he).1]; exact hpos
  · have hnext : nextVersion (nextVersion t.version t.initialVersion) t.initialVersion =
        nextVersion t.version t.initialVersion + 1 := by
      rw [nextVersion, if_neg (by omega), next_eq hle]
    rw [(hsaved e he).1]
    exact hnext.symm

end MultiTree

end IavlStore.Multi
