import IavlStore.Multi.Coherence
import IavlStore.Multi.Contents

/-! What holds of every tree of a multitree, whatever is done to it. A property that new trees
have and that setting, removing and saving keep is kept by change sets, upgrades, the initial
version, snapshots and replays, whether they fail or not. Being a well-formed tree is such a
property. -/

namespace IavlStore.Multi

open IavlStore.Base.Encoding IavlStore.Base.SortedPairs IavlStore.Tree

/-- A property of trees that every operation on a tree keeps. -/
structure Hereditary (P : Tree → Prop) : Prop where
  new : ∀ version, P (newWithInitialVersion version)
  set : ∀ {t : Tree} (key : Bytes) (value : Option Bytes), P t → P (t.set key value)
  remove : ∀ {t : Tree} (key : Bytes), P t → P (t.remove key)
  saveVersion : ∀ {t t' : Tree}, t.saveVersion = some t' → P t → P t'
  setInitialVersion : ∀ {t : Tree} {iv : ℕ}, 1 < iv → iv ≤ maxInt64 → P t → P (setInitialVersionTree iv t)

theorem hereditary_inv : Hereditary Tree.Inv where
  new version n hn := by
    unfold newWithInitialVersion at hn
    split_ifs at hn <;> cases hn
  set key value h := h.set key value
  remove key h := h.remove key
  saveVersion hs h := (h.saveVersion hs).1
  setInitialVersion {t iv} hiv hmax h := by
    unfold setInitialVersionTree
    split_ifs with hv
    · exact h
    · intro n hn
      have hle : next t.version ≤ next (iv - 1) := by
        rw [show t.version = 0 by omega, next_eq (Nat.zero_le _), next_eq (by omega)]
        omega
      exact (h n hn).mono hle

variable {P : Tree → Prop}

theorem Hereditary.applyChangeSet (hP : Hereditary P) {tree : Tree} (h : P tree) (cs : ChangeSet) :
    P (tree.applyChangeSet cs) := by
  induction cs generalizing tree with
  | nil => exact h
  | cons p cs ih =>
    apply ih
    unfold Tree.applyPair
    split_ifs
    · exact hP.remove p.key h
    · exact hP.set p.key p.value h

namespace MultiTree

variable {N : Type} [LinearOrder N] {t t' : MultiTree N} {sha256 : Bytes → Bytes} {W : WalLog (WALEntry N)}

/-- All trees have the property. -/
def Every (P : Tree → Prop) (t : MultiTree N) : Prop := ∀ e ∈ t.trees, P e.tree

/-- So have those of a snapshot. -/
def EveryDir (P : Tree → Prop) (dir : SnapshotDir N) : Prop := ∀ e ∈ dir.trees, P e.tree

omit [LinearOrder N] in
theorem Every.writeSnapshot (h : t.Every P) : EveryDir P t.writeSnapshot := h

omit [LinearOrder N] in
theorem every_newEmptyMultiTree (P : Tree → Prop) (iv : ℕ) : (newEmptyMultiTree iv : MultiTree N).Every P :=
  fun e he => absurd he (by simp [newEmptyMultiTree])

section Hereditary
variable (hP : Hereditary P)
include hP

/-- A failing upgrade leaves the trees of the upgrades before it. -/
theorem Every.applyUpgrades (h : t.Every P) (us : List (TreeNameUpgrade N)) : (t.applyUpgrades us).1.Every P := by
  have hloop : ∀ e ∈ (upgradeLoop (nextVersion t.version t.initialVersion) us t.trees).1, P e.tree := by
    intro e he
    rcases tree_of_mem_upgradeLoop e he with ⟨d, hd, heq⟩ | heq
    · exact heq ▸ h d hd
    · exact heq ▸ hP.new _
  unfold MultiTree.applyUpgrades
  split_ifs
  · exact h
  · rcases hl : upgradeLoop (nextVersion t.version t.initialVersion) us t.trees with ⟨trees, _ | err⟩ <;>
      rw [hl] at hloop
    · exact fun e he => hloop e ((List.perm_insertionSort _ trees).mem_iff.mp he)
    · exact hloop

omit [LinearOrder N] in
theorem every_modify {trees : List (NamedTree N)} (h : ∀ e ∈ trees, P e.tree) (cs : ChangeSet) (i : ℕ) :
    ∀ e ∈ trees.modify i fun e => { e with tree := e.tree.applyChangeSet cs }, P e.tree := by
  intro e he
  obtain ⟨j, hj, rfl⟩ := List.getElem_of_mem he
  rw [List.getElem_modify]
  split_ifs
  · exact hP.applyChangeSet (h _ (List.getElem_mem _)) cs
  · exact h _ (List.getElem_mem _)

theorem Every.applyChangeSet (h : t.Every P) (name : N) (cs : ChangeSet) : (t.applyChangeSet name cs).1.Every P := by
  unfold MultiTree.applyChangeSet
  split
  · exact h
  · exact every_modify hP h cs _

theorem Every.applyChangeSets (h : t.Every P) (cs : List (NamedChangeSet N)) : (t.applyChangeSets cs).1.Every P := by
  induction cs generalizing t with
  | nil => exact h
  | cons c cs ih =>
    have hc := h.applyChangeSet hP c.name c.changeset
    rw [MultiTree.applyChangeSets]
    rcases ht : t.applyChangeSet c.name c.changeset with ⟨t', _ | err⟩ <;> rw [ht] at hc
    · exact ih hc
    · exact hc

theorem Every.applyWALEntry (h : t.Every P) {e : WALEntry N} (he : t.applyWALEntry e = .ok t') : t'.Every P := by
  obtain ⟨t₁, hu, hc⟩ := applyWALEntry_eq_ok he
  have h₁ := h.applyUpgrades hP e.upgrades
  rw [hu] at h₁
  have h₂ := h₁.applyChangeSets hP e.changesets
  rwa [hc] at h₂

omit [LinearOrder N] in
theorem Every.saveVersion (h : t.Every P) {update : Bool} (hs : t.saveVersion sha256 update = .ok t') :
    t'.Every P := by
  obtain ⟨trees, htrees, heq⟩ := saveVersion_eq_ok hs
  obtain ⟨hmap, hle⟩ := saveTrees_eq_map htrees
  have htrees' : t'.trees = trees := by
    rw [heq]
    cases update <;> rfl
  intro e he
  rw [htrees', hmap] at he
  obtain ⟨d, hd, rfl⟩ := List.mem_map.mp he
  exact hP.saveVersion (if_neg (not_lt.mpr (hle d hd))) (h d hd)

omit [LinearOrder N] in
theorem Every.assignInitialVersion (h : t.Every P) {iv : ℕ} (hmax : iv ≤ maxInt64) :
    (t.assignInitialVersion iv).Every P := by
  intro e he
  by_cases hiv : 1 < iv
  · have he' : e ∈ t.trees.map fun e => { e with tree := setInitialVersionTree iv e.tree } := by
      rwa [MultiTree.assignInitialVersion, if_pos hiv] at he
    obtain ⟨d, hd, rfl⟩ := List.mem_map.mp he'
    exact hP.setInitialVersion hiv hmax (h d hd)
  · rw [MultiTree.assignInitialVersion, if_neg hiv] at he
    exact h e he

omit [LinearOrder N] in
theorem Every.setInitialVersion (h : t.Every P) {iv : ℕ} (hs : t.setInitialVersion iv = .ok t') : t'.Every P := by
  unfold MultiTree.setInitialVersion at hs
  by_cases hmax : maxInt64 < iv
  · simp only [if_pos hmax] at hs
    cases hs
  by_cases hv : t.version ≠ 0
  · simp only [if_neg hmax, if_pos hv] at hs
    cases hs
  simp only [if_neg hmax, if_neg hv] at hs
  rcases hf : t.trees.find? fun e => e.tree.root.isSome with _ | e
  · rw [hf] at hs
    obtain rfl := Except.ok.inj hs
    exact h.assignInitialVersion hP (not_lt.mp hmax)
  · rw [hf] at hs
    cases hs

theorem EveryDir.loadMultiTree {dir : SnapshotDir N} (h : EveryDir P dir) (hl : loadMultiTree dir = some t) :
    t.Every P := by
  unfold Multi.loadMultiTree at hl
  split_ifs at hl with hneg
  obtain rfl := Option.some.inj hl
  have hsorted : (⟨0, MultiTree.sortTrees dir.trees, positions (MultiTree.sortTrees dir.trees), dir.commitInfo⟩ :
      MultiTree N).Every P := fun e he => h e ((List.perm_insertionSort _ dir.trees).mem_iff.mp he)
  exact hsorted.assignInitialVersion hP (not_lt.mp fun hlt => hneg (.inr hlt))

/-! ### Replays -/

theorem Every.catchupLoop (h : t.Every P) {w : W.Log} {count i : ℕ}
    (hc : MultiTree.catchupLoop sha256 W w count i t = some t') : t'.Every P := by
  induction count generalizing i t with
  | zero => exact Option.some.inj hc ▸ h
  | succ count ih =>
    obtain ⟨e, t₁, t₂, -, ha, hs, hrest⟩ := catchupLoop_succ sha256 W hc
    exact ih ((h.applyWALEntry hP ha).saveVersion hP hs) hrest

theorem Every.catchupWAL (h : t.Every P) {w : W.Log} {endVersion : ℕ}
    (hc : t.catchupWAL sha256 W w endVersion = some t') : t'.Every P := by
  unfold MultiTree.catchupWAL at hc
  simp only at hc
  split_ifs at hc
  · exact Option.some.inj hc ▸ h
  all_goals
    obtain ⟨t₁, hloop, rfl⟩ := Option.map_eq_some_iff.mp hc
    have h₁ := h.catchupLoop hP hloop
    exact h₁

end Hereditary

end MultiTree

end IavlStore.Multi
