import IavlStore.Multi.Snapshot

/-! Upgrades before the first commit. New trees get their version from the initial version
of the multitree, so upgrades commute with setting it while the trees are empty. Upgrades
in two calls are one call when the first one leaves the trees in order. -/

namespace IavlStore.Multi

open IavlStore.Base.Encoding IavlStore.Base.SortedPairs

variable {N : Type} [LinearOrder N]

namespace MultiTree

/-! ### Two calls -/

theorem upgradeLoop_append (v : ℕ) (us vs : List (TreeNameUpgrade N)) (trees : List (NamedTree N)) :
    upgradeLoop v (us ++ vs) trees =
      match upgradeLoop v us trees with
      | (trees, none) => upgradeLoop v vs trees
      | (trees, some e) => (trees, some e) := by
  induction us generalizing trees with
  | nil => rfl
  | cons u us ih =>
    rw [List.cons_append, upgradeLoop, upgradeLoop]
    rcases upgradeTrees v u trees with e | trees'
    · rfl
    · exact ih trees'

/-- The second call finds the trees where the first loop left them. -/
theorem applyUpgrades_append {t t₁ t₂ : MultiTree N} {us vs : List (TreeNameUpgrade N)}
    (h₁ : t.applyUpgrades us = (t₁, none))
    (hs : sortTrees (upgradeLoop (nextVersion t.version t.initialVersion) us t.trees).1 =
      (upgradeLoop (nextVersion t.version t.initialVersion) us t.trees).1)
    (h₂ : t₁.applyUpgrades vs = (t₂, none)) : t.applyUpgrades (us ++ vs) = (t₂, none) := by
  by_cases hu : us = []
  · subst hu
    obtain ⟨rfl, -⟩ := Prod.mk.inj h₁
    exact h₂
  by_cases hv : vs = []
  · subst hv
    obtain ⟨rfl, -⟩ := Prod.mk.inj h₂
    rwa [List.append_nil]
  obtain ⟨hci, hiv⟩ := applyUpgrades_fields h₁
  have hver : t₁.version = t.version := congrArg CommitInfo.version hci
  unfold applyUpgrades at h₁ h₂ ⊢
  rw [if_neg hu] at h₁
  rw [if_neg hv, hver, hiv] at h₂
  rw [if_neg (by simp [hu]), upgradeLoop_append]
  rcases hl : upgradeLoop (nextVersion t.version t.initialVersion) us t.trees with ⟨trees, _ | e⟩
  · rw [hl] at h₁ hs
    simp only at h₁ hs ⊢
    have htrees : t₁.trees = trees := by
      rw [← (Prod.mk.inj h₁).1]
      exact hs
    rw [htrees] at h₂
    rcases hl₂ : upgradeLoop (nextVersion t.version t.initialVersion) vs trees with ⟨trees₂, _ | e⟩
    · rw [hl₂] at h₂
      rw [← h₂, ← (Prod.mk.inj h₁).1]
    · rw [hl₂] at h₂
      exact absurd (Prod.mk.inj h₂).2 (by simp)
  · rw [hl] at h₁
    exact absurd (Prod.mk.inj h₁).2 (by simp)

/-! ### Maps that keep the names -/

theorem swapDelete_map {α β : Type} (f : α → β) (l : List α) (i : ℕ) :
    swapDelete (l.map f) i = (swapDelete l i).map f := by
  unfold swapDelete
  rw [List.getLast?_map]
  rcases l.getLast? with _ | x
  · rfl
  · simp [List.map_set, List.map_dropLast]

section Map
variable {g : NamedTree N → NamedTree N} (hname : ∀ e, (g e).name = e.name)
include hname

/-- An upgrade commutes with a map that commutes with renaming and maps new trees to new ones. -/
theorem upgradeTrees_map {v w : ℕ} {u : TreeNameUpgrade N} (trees : List (NamedTree N))
    (hrename : ∀ e, u.renameFrom = some e.name → g { e with name := u.name } = { g e with name := u.name })
    (hnew : g ⟨u.name, newWithInitialVersion v⟩ = ⟨u.name, newWithInitialVersion w⟩) :
    upgradeTrees w u (trees.map g) = (upgradeTrees v u trees).map (List.map g) := by
  have hfind : ∀ name : N, (trees.map g).findIdx? (fun e => e.name = name) =
      trees.findIdx? fun e => e.name = name := by
    intro name
    rw [List.findIdx?_map]
    congr 1
    funext e
    simp only [Function.comp_apply, hname]
  unfold upgradeTrees
  split_ifs
  · rw [hfind]
    generalize trees.findIdx? _ = found
    rcases found with _ | i
    · rfl
    · exact congrArg Except.ok (swapDelete_map _ _ _)
  · rcases hr : u.renameFrom with _ | old
    · simp [Except.map, hnew]
    · simp only [hfind]
      generalize hi : trees.findIdx? _ = found
      rcases found with _ | i
      · rfl
      · simp only [Except.map]
        congr 1
        apply List.ext_getElem?
        intro j
        simp only [List.getElem?_modify, List.getElem?_map]
        by_cases hij : i = j
        · subst hij
          obtain ⟨hlt, hold, -⟩ := List.findIdx?_eq_some_iff_getElem.mp hi
          rw [List.getElem?_eq_getElem hlt]
          have hren := hrename trees[i] (by rw [hr, of_decide_eq_true hold])
          simp only [Option.map_some, ↓reduceIte, Option.map_eq_map, hren]
        · simp only [if_neg hij]
          rcases trees[j]? with _ | e <;> rfl

theorem upgradeLoop_map {v w : ℕ} (us : List (TreeNameUpgrade N)) (trees : List (NamedTree N))
    (hrename : ∀ u ∈ us, ∀ e, u.renameFrom = some e.name →
      g { e with name := u.name } = { g e with name := u.name })
    (hnew : ∀ u ∈ us, g ⟨u.name, newWithInitialVersion v⟩ = ⟨u.name, newWithInitialVersion w⟩) :
    upgradeLoop w us (trees.map g) = ((upgradeLoop v us trees).1.map g, (upgradeLoop v us trees).2) := by
  induction us generalizing trees with
  | nil => rfl
  | cons u us ih =>
    rw [upgradeLoop, upgradeLoop, upgradeTrees_map hname trees (hrename u (by simp)) (hnew u (by simp))]
    rcases upgradeTrees v u trees with e | trees'
    · rfl
    · exact ih trees' (fun u hu => hrename u (by simp [hu])) fun u hu => hnew u (by simp [hu])

theorem sortTrees_map (trees : List (NamedTree N)) : sortTrees (trees.map g) = (sortTrees trees).map g := by
  have h := List.map_insertionSort (fun a b : NamedTree N => a.name ≤ b.name) (fun a b => a.name ≤ b.name)
    g trees fun a _ b _ => by simp only [hname]
  exact h.symm

theorem indexTrees_map (trees : List (NamedTree N)) (k : ℕ) (m : List (N × ℕ)) :
    indexTrees (trees.map g) k m = indexTrees trees k m := by
  induction trees generalizing k m with
  | nil => rfl
  | cons e es ih =>
    rw [List.map_cons, indexTrees, indexTrees]
    simp only [ih, hname]

end Map

/-! ### New trees at another version -/

/-- The same name with a new tree. -/
def renew (v : ℕ) (e : NamedTree N) : NamedTree N := { e with tree := newWithInitialVersion v }

/-- The same upgrades of an empty multitree with another initial version. -/
theorem applyUpgrades_newEmpty {iv : ℕ} (iv' : ℕ) {us : List (TreeNameUpgrade N)} {up : MultiTree N}
    (h : (newEmptyMultiTree iv).applyUpgrades us = (up, none)) :
    (newEmptyMultiTree iv').applyUpgrades us =
      ({ up with initialVersion := iv', trees := up.trees.map (renew (nextVersion 0 iv')) }, none) := by
  unfold applyUpgrades at h ⊢
  split_ifs at h ⊢ with hnil
  · obtain ⟨rfl, -⟩ := Prod.mk.inj h
    rfl
  · have hl := upgradeLoop_map (g := renew (nextVersion 0 iv')) (fun _ => rfl) (v := nextVersion 0 iv)
      (w := nextVersion 0 iv') us ([] : List (NamedTree N)) (fun _ _ _ _ => rfl) fun _ _ => rfl
    simp only [newEmptyMultiTree, version] at h ⊢
    rw [List.map_nil] at hl
    rw [hl]
    rcases hv : upgradeLoop (nextVersion 0 iv) us [] with ⟨trees, _ | e⟩
    · rw [hv] at h
      obtain ⟨rfl, he⟩ := Prod.mk.inj h
      have hname : ∀ e : NamedTree N, (renew (nextVersion 0 iv') e).name = e.name := fun _ => rfl
      simp only [sortTrees_map hname, indexTrees_map hname, he]
    · rw [hv] at h
      exact absurd (Prod.mk.inj h).2 (by simp)

/-- Every tree of an upgraded empty multitree is new. -/
theorem tree_of_applyUpgrades_newEmpty {iv : ℕ} {us : List (TreeNameUpgrade N)} {up : MultiTree N}
    (h : (newEmptyMultiTree iv).applyUpgrades us = (up, none)) :
    ∀ e ∈ up.trees, e.tree = newWithInitialVersion (nextVersion 0 iv) := by
  unfold applyUpgrades at h
  split_ifs at h with hnil
  · obtain ⟨rfl, -⟩ := Prod.mk.inj h
    simp [newEmptyMultiTree]
  · simp only [newEmptyMultiTree, version] at h
    rcases hv : upgradeLoop (nextVersion 0 iv) us [] with ⟨trees, _ | err⟩
    · rw [hv] at h
      obtain ⟨rfl, -⟩ := Prod.mk.inj h
      intro e he
      have he' : e ∈ (upgradeLoop (nextVersion 0 iv) us ([] : List (NamedTree N))).1 := by
        rw [hv]
        exact (List.mem_insertionSort _).mp he
      rcases tree_of_mem_upgradeLoop e he' with ⟨d, hd, -⟩ | hnew
      · exact absurd hd (by simp)
      · exact hnew
    · rw [hv] at h
      exact absurd (Prod.mk.inj h).2 (by simp)

end MultiTree

/-! ### Setting the initial version -/

omit [LinearOrder N] in
theorem MultiTree.setInitialVersion_eq_ok {v : ℕ} {t t' : MultiTree N} (h : t.setInitialVersion v = .ok t') :
    v ≤ maxInt64 ∧ t.version = 0 ∧ (∀ e ∈ t.trees, e.tree.root = none) ∧ t' = t.assignInitialVersion v := by
  unfold MultiTree.setInitialVersion at h
  by_cases hneg : maxInt64 < v
  · rw [if_pos hneg] at h
    exact nomatch h
  by_cases h0 : t.version = 0
  · rw [if_neg hneg, if_neg (not_not.mpr h0)] at h
    rcases hf : t.trees.find? (fun e => e.tree.root.isSome) with _ | e
    · rw [hf] at h
      refine ⟨not_lt.mp hneg, h0, fun e he => ?_, (Except.ok.inj h).symm⟩
      simpa using List.find?_eq_none.mp hf e he
    · rw [hf] at h
      exact nomatch h
  · rw [if_neg hneg, if_pos h0] at h
    exact nomatch h

/-- The pairs after a change set do not depend on the version of an empty tree. -/
theorem pairs_applyChangeSet_congr {t t' : Tree} (ht : t.Inv) (ht' : t'.Inv) (h : t.pairs = t'.pairs)
    (cs : ChangeSet) : (t.applyChangeSet cs).pairs = (t'.applyChangeSet cs).pairs := by
  induction cs generalizing t t' with
  | nil => exact h
  | cons p cs ih =>
    refine ih (ht.applyPair p) (ht'.applyPair p) ?_
    unfold Tree.applyPair
    split_ifs
    · rw [Tree.pairs_remove ht, Tree.pairs_remove ht', h]
    · rw [Tree.pairs_set ht, Tree.pairs_set ht', h]

theorem root_eq_none_iff (t : Tree) : t.root = none ↔ t.pairs = [] := by
  unfold Tree.pairs
  rcases t.root with _ | n
  · simp
  · simp [n.toList_ne_nil]

theorem newWithInitialVersion_inv (v : ℕ) : (newWithInitialVersion v).Inv := by
  unfold newWithInitialVersion
  split_ifs <;> exact Tree.newEmptyTree_inv _

/-- Changes that leave a new tree empty do so at every version. -/
theorem applyChangeSet_newWithInitialVersion {v : ℕ} (w : ℕ) {cs : ChangeSet}
    (h : ((newWithInitialVersion v).applyChangeSet cs).root = none) :
    (newWithInitialVersion w).applyChangeSet cs = newWithInitialVersion w := by
  have hpairs : ∀ v, (newWithInitialVersion v).pairs = [] := by
    intro v
    unfold newWithInitialVersion
    split_ifs <;> rfl
  have hroot : ((newWithInitialVersion w).applyChangeSet cs).root = none := by
    rw [root_eq_none_iff] at h ⊢
    rwa [pairs_applyChangeSet_congr (newWithInitialVersion_inv w) (newWithInitialVersion_inv v)
      ((hpairs w).trans (hpairs v).symm)]
  have hnew : (newWithInitialVersion w).root = none := (root_eq_none_iff _).mpr (hpairs w)
  have hver := (newWithInitialVersion w).version_applyChangeSet cs
  rcases ha : (newWithInitialVersion w).applyChangeSet cs with ⟨version, root⟩
  rcases hb : newWithInitialVersion w with ⟨version', root'⟩
  rw [ha] at hroot hver
  rw [hb] at hnew hver
  simp only at hroot hnew hver
  rw [hroot, hnew, hver]

/-- Setting the initial version of new trees makes them new trees of that version, unless
another initial version was set before. -/
theorem setInitialVersionTree_newWithInitialVersion {iv iv' : ℕ} (hiv : iv ≤ 1 ∨ iv' = iv) (h : 1 < iv') :
    setInitialVersionTree iv' (newWithInitialVersion (nextVersion 0 iv)) =
      newWithInitialVersion (nextVersion 0 iv') := by
  rcases hiv with hiv | rfl
  · have h1 : nextVersion 0 iv = 1 := by
      unfold nextVersion
      rw [if_neg (by omega)]
      rfl
    have h2 : nextVersion 0 iv' = iv' := if_pos ⟨rfl, h⟩
    rw [h1, h2]
    simp [newWithInitialVersion, setInitialVersionTree, Tree.newEmptyTree, show ¬ iv' ≤ 1 by omega]
  · have h2 : nextVersion 0 iv' = iv' := if_pos ⟨rfl, h⟩
    have hv := MultiTree.version_newWithInitialVersion (v := iv') (by omega)
    rw [h2, setInitialVersionTree, if_pos (by omega)]

omit [LinearOrder N] in
@[simp] theorem MultiTree.names_assignInitialVersion (v : ℕ) (t : MultiTree N) :
    (t.assignInitialVersion v).names = t.names := by
  unfold MultiTree.assignInitialVersion MultiTree.names
  split_ifs
  · simp
  · rfl

/-- While all trees are empty, setting the initial version is starting over with it. -/
theorem assignInitialVersion_applyAll {iv iv' : ℕ} {us : List (TreeNameUpgrade N)} {up : MultiTree N}
    {f : N → ChangeSet} (hiv : (up.applyAll f).trees = [] ∨ iv ≤ 1 ∨ iv' = iv)
    (h : (MultiTree.newEmptyMultiTree iv).applyUpgrades us = (up, none))
    (hempty : ∀ e ∈ (up.applyAll f).trees, e.tree.root = none) :
    ∃ up', (MultiTree.newEmptyMultiTree iv').applyUpgrades us = (up', none) ∧
      (up.applyAll f).assignInitialVersion iv' = up'.applyAll f := by
  have hnew := MultiTree.tree_of_applyUpgrades_newEmpty h
  have heq : ∀ w, ∀ e ∈ up.trees, (newWithInitialVersion w).applyChangeSet (f e.name) =
      newWithInitialVersion w := by
    intro w e he
    have hroot := hempty _ (List.mem_map_of_mem he)
    simp only [hnew e he] at hroot
    exact applyChangeSet_newWithInitialVersion w hroot
  refine ⟨_, MultiTree.applyUpgrades_newEmpty iv' h, ?_⟩
  unfold MultiTree.assignInitialVersion MultiTree.applyAll
  simp only [List.map_map, MultiTree.mk.injEq, true_and, and_true]
  have htree : ∀ e ∈ up.trees, iv ≤ 1 ∨ iv' = iv := by
    intro e he
    refine hiv.resolve_left fun hnil => ?_
    rw [MultiTree.applyAll, List.map_eq_nil_iff] at hnil
    simp [hnil] at he
  split_ifs with h1
  · refine List.map_congr_left fun e he => ?_
    simp only [Function.comp_apply, MultiTree.renew, hnew e he, heq _ e he,
      setInitialVersionTree_newWithInitialVersion (htree e he) h1]
  · refine List.map_congr_left fun e he => ?_
    have hsame : nextVersion 0 iv = nextVersion 0 iv' := by
      unfold nextVersion
      rcases htree e he with hiv | rfl
      · rw [if_neg (by omega), if_neg (by omega)]
      · rfl
    simp only [Function.comp_apply, MultiTree.renew, hnew e he, heq _ e he, hsame]

end IavlStore.Multi
