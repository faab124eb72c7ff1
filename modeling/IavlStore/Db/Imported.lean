import IavlStore.Db.Crash
import IavlStore.Db.StateSync

/-! What is loaded from a directory into which trees were imported. The metadata names the height and the version
after it as the initial one, so the first entry of the log leads to that version: a log that was not empty takes
the multitree away from the height. Trees that were left in the temporary directory become part of the snapshot,
and without them the snapshot is loaded as the trees of the stream. -/

namespace IavlStore.Db

open IavlStore.Base.Encoding IavlStore.Base.SortedPairs IavlStore.Tree IavlStore.Multi
open IavlStore.Persist (sizeHash)

variable {N : Type} [LinearOrder N] {W : WalLog (WALEntry N)} {sha256 : Bytes → Bytes} {height n : ℕ}
  {roots : List (N × Option (Node Bytes Bytes))}

/-! ### The log -/

section Log
variable {t t' : MultiTree N}

/-- The version after entries of the log. -/
theorem version_catchupLoop {w : W.Log} {count i : ℕ} (h : MultiTree.catchupLoop sha256 W w count i t = some t') :
    t'.initialVersion = t.initialVersion ∧
      t'.version = (fun v => nextVersion v t.initialVersion)^[count] t.version := by
  induction count generalizing i t with
  | zero =>
    cases h
    exact ⟨rfl, rfl⟩
  | succ count ih =>
    obtain ⟨e, t₁, t₂, -, happly, hsave, hrest⟩ := MultiTree.catchupLoop_succ sha256 W h
    obtain ⟨hv₁, hi₁⟩ := applyWALEntry_fields happly
    obtain ⟨hv₂, hi₂⟩ := MultiTree.saveVersion_fields hsave
    obtain ⟨hi, hv⟩ := ih hrest
    rw [hi₂, hi₁] at hi
    rw [hi₂, hi₁, hv₂, hi₁, hv₁] at hv
    exact ⟨hi, hv⟩

/-- Versions that follow a height do not return to it. -/
theorem iterate_nextVersion_ne {count : ℕ} (hh : height < maxInt64) (hpos : 0 < count) (hlt : count < 2 ^ 64) :
    (fun v => nextVersion v (height + 1))^[count] height ≠ height := by
  rcases Nat.eq_zero_or_pos height with rfl | hheight
  · have hcount : ∀ k, (fun v => nextVersion v (0 + 1))^[k] 0 = k % 2 ^ 64 := by
      intro k
      induction k with
      | zero => rfl
      | succ k ih =>
        rw [Function.iterate_succ_apply', ih, nextVersion, if_neg (by omega), next]
        omega
    rw [hcount, Nat.mod_eq_of_lt hlt]
    exact hpos.ne'
  · have hafter : ∀ k, (fun v => nextVersion v (height + 1))^[k + 1] height = 0 ∨
        height < (fun v => nextVersion v (height + 1))^[k + 1] height ∧
          (fun v => nextVersion v (height + 1))^[k + 1] height < 2 ^ 64 := by
      unfold maxInt64 at hh
      intro k
      induction k with
      | zero =>
        right
        simp only [Function.iterate_succ, Function.iterate_zero, Function.comp_apply, id]
        rw [nextVersion_of_pos hheight, next]
        omega
      | succ k ih =>
        rw [Function.iterate_succ_apply']
        generalize (fun v => nextVersion v (height + 1))^[k + 1] height = v at ih
        unfold nextVersion next
        split_ifs with hv <;> omega
    obtain ⟨k, rfl⟩ := Nat.exists_eq_succ_of_ne_zero hpos.ne'
    rcases hafter k with h | h
    · exact fun heq => hheight.ne' (heq.symm.trans h)
    · exact h.1.ne'

omit [LinearOrder N] in
/-- The first entry of the log leads to the version after the height. -/
theorem nextIndex_height (hh : height < maxInt64) (hv : t.version = height) (hi : t.initialVersion = height + 1) :
    NextIndex t 1 := by
  have hnext : nextVersion t.version t.initialVersion = height + 1 := by
    rw [hv, hi, nextVersion, if_neg (by omega), next_eq hh.le]
  unfold maxInt64 at hh
  rw [NextIndex, hnext, hi, walIndex]
  split_ifs <;> omega

/-- A log with entries leads away from the height. -/
theorem version_catchupWAL_ne {w : W.Log} (hh : height < maxInt64) (hv : t.version = height)
    (hi : t.initialVersion = height + 1) (hpos : 0 < W.lastIndex w) (hlt : W.lastIndex w < 2 ^ 64)
    (h : t.catchupWAL sha256 W w 0 = some t') : t'.version ≠ height := by
  have hindex := nextIndex_height hh hv hi
  rw [NextIndex] at hindex
  simp only [MultiTree.catchupWAL, hindex, if_true] at h
  rw [if_neg (by omega), if_neg (by omega), min_self, Nat.add_sub_cancel, Option.map_eq_some_iff] at h
  obtain ⟨t₁, hloop, rfl⟩ := h
  have hversion := (version_catchupLoop hloop).2
  rw [hv, hi] at hversion
  intro heq
  exact iterate_nextVersion_ne hh hpos hlt (hversion.symm.trans heq)

/-- The trees of the loaded multitree and, at version zero, the stores. -/
theorem perm_initialWorking {stores : List N} {working : Working N} (h : initialWorking stores t = (working, none)) :
    ∃ added, working.mtree.trees.Perm (t.trees ++ added) ∧ added.length = if t.version = 0 then stores.length else 0 := by
  unfold initialWorking at h
  split_ifs at h with hc
  · have hne : stores.map (fun name => (⟨name, none, false⟩ : TreeNameUpgrade N)) ≠ [] := by simp [hc.2]
    simp only [Working.applyUpgrades, MultiTree.applyUpgrades, if_neg hne, upgradeLoop_add] at h
    refine ⟨stores.map fun name => ⟨name, newWithInitialVersion (nextVersion t.version t.initialVersion)⟩, ?_,
      by rw [if_pos hc.1, List.length_map]⟩
    rcases hidx : indexTrees (MultiTree.sortTrees (t.trees ++ stores.map fun name =>
        ⟨name, newWithInitialVersion (nextVersion t.version t.initialVersion)⟩)) 0 [] with ⟨byName, _ | err⟩ <;>
      simp only [hidx, Prod.mk.injEq, reduceCtorEq, and_false] at h
    rw [← h.1]
    exact List.perm_insertionSort _ _
  · obtain rfl : _ = working := (Prod.mk.inj h).1
    refine ⟨[], by simp, ?_⟩
    split_ifs with h0
    · rw [not_and_not_right] at hc
      rw [hc h0]
      rfl
    · rfl

end Log

/-! ### The trees of the stream -/

def importedTree (sha256 : Bytes → Bytes) (height : ℕ) (roots : List (N × Option (Node Bytes Bytes))) : MultiTree N :=
  ⟨height + 1, importTrees height roots, positions (importTrees height roots),
    (importDir sha256 height roots).commitInfo⟩

theorem names_importTrees_perm (height : ℕ) (roots : List (N × Option (Node Bytes Bytes))) :
    ((importTrees height roots).map NamedTree.name).Perm (roots.map Prod.fst) := by
  have hperm := (List.perm_insertionSort (fun a b : NamedTree N => a.name ≤ b.name)
    (roots.map fun r => ⟨r.1, ⟨height, r.2⟩⟩)).map NamedTree.name
  rw [List.map_map] at hperm
  exact hperm

theorem version_of_mem_importTrees {e : NamedTree N} (he : e ∈ importTrees height roots) : e.tree.version = height := by
  have hmem := (List.mem_insertionSort _).mp he
  obtain ⟨r, -, rfl⟩ := List.mem_map.mp hmem
  rfl

theorem coherent_importedTree (hnd : (roots.map Prod.fst).Nodup) : (importedTree sha256 height roots).Coherent := by
  refine ⟨?_, rfl⟩
  have hle := List.pairwise_map.mpr (MultiTree.pairwise_sortTrees (roots.map fun r => ⟨r.1, ⟨height, r.2⟩⟩))
  have hne : ((importTrees height roots).map NamedTree.name).Nodup := (names_importTrees_perm height roots).nodup_iff.mpr hnd
  exact (hle.and hne).imp fun h => lt_of_le_of_ne h.1 h.2

/-- The imported directory is loaded as its trees. -/
theorem loadMultiTree_importDir (hnd : (roots.map Prod.fst).Nodup) (hh : height < maxInt64) :
    loadMultiTree (importDir sha256 height roots) = some (importedTree sha256 height roots) := by
  have hloadable : (importedTree sha256 height roots).Loadable := by
    refine ⟨coherent_importedTree hnd, hh.le, hh, ?_⟩
    rcases Nat.eq_zero_or_pos height with rfl | hpos
    · exact .inl le_rfl
    · exact .inr fun e he => (version_of_mem_importTrees he).symm ▸ hpos
  exact hloadable.loadMultiTree_writeSnapshot

omit [LinearOrder N] in
theorem exists_saveTrees {trees : List (NamedTree N)} (h : ∀ e ∈ trees, e.tree.version < maxInt64) :
    ∃ trees', MultiTree.saveTrees trees = .ok trees' := by
  induction trees with
  | nil => exact ⟨[], rfl⟩
  | cons e trees ih =>
    obtain ⟨trees', hrest⟩ := ih fun e he => h e (by simp [he])
    have he := h e (by simp)
    have hsave : e.tree.saveVersion = some { e.tree with version := e.tree.version + 1 } := by
      rw [Tree.saveVersion, next_eq he.le, if_neg (by omega)]
    exact ⟨_, by rw [MultiTree.saveTrees, hsave, hrest]; rfl⟩

/-! ### The snapshot -/

section Written
variable {tmpDir : Option (List (N × Persist.Files))} {snapshot : SnapshotDir N} {t₀ : MultiTree N}

theorem eq_of_writtenDir {d : List (N × Persist.Files)} (h : writtenDir sha256 height roots tmpDir = some d) :
    d = insertPairs (roots.map (treeFiles sha256 height)) (tmpDir.getD []) := by
  cases roots with
  | nil =>
    obtain rfl : tmpDir = some d := h
    rfl
  | cons r roots =>
    rw [writtenDir_cons] at h
    exact (Option.some.inj h).symm

/-- The metadata and the names of an imported snapshot. -/
theorem fields_importItems (hroots : ∀ r ∈ roots, Storable n r.2) (hn : n < 2 ^ 63)
    (h : importItems sha256 height tmpDir (syncItems roots) = some snapshot) :
    snapshot.commitInfo.version = height ∧ snapshot.initialVersion = height + 1 ∧
      snapshot.trees.map NamedTree.name =
        (insertPairs (roots.map (treeFiles sha256 height)) (tmpDir.getD [])).map Prod.fst := by
  obtain ⟨-, -, d, hd, hmeta⟩ := (importItems_eq_some_iff hroots hn).mp h
  obtain rfl := eq_of_writtenDir hd
  simp only [updateMetadataFile, Option.bind_eq_bind, Option.bind_eq_some_iff, Option.some.injEq] at hmeta
  obtain ⟨⟨infos, trees⟩, hopen, rfl⟩ := hmeta
  exact ⟨rfl, rfl, names_openTrees hopen⟩

/-- Trees of other names become part of the snapshot. -/
theorem mem_names_of_stale (hroots : ∀ r ∈ roots, Storable n r.2) (hn : n < 2 ^ 63) (hnd : (roots.map Prod.fst).Nodup)
    (himport : importItems sha256 height tmpDir (syncItems roots) = some snapshot)
    {tmp : List (N × Persist.Files)} (htmp : tmp ∈ tmpDir) {p : N × Persist.Files} (hp : p ∈ tmp) :
    p.1 ∈ snapshot.trees.map NamedTree.name := by
  have hkeys : ((roots.map (treeFiles sha256 height)).map Prod.fst).Nodup := by
    rw [List.map_map]
    exact hnd
  obtain ⟨v, hv⟩ := exists_lookupPair_of_mem (List.mem_map_of_mem (f := Prod.fst) hp)
  obtain rfl : tmpDir = some tmp := htmp
  have hlookup := lookupPair_insertPairs hkeys p.1 tmp
  rw [hv] at hlookup
  rw [(fields_importItems hroots hn himport).2.2]
  rcases hfirst : lookupPair p.1 (roots.map (treeFiles sha256 height)) with _ | files <;> rw [hfirst] at hlookup <;>
    exact mem_of_lookupPair hlookup

/-- Without them it holds the trees of the stream. -/
theorem importItems_eq_importDir (hsha : ∀ b, (sha256 b).length = sizeHash) (hroots : ∀ r ∈ roots, Storable n r.2)
    (hn : n < 2 ^ 63) (hnd : (roots.map Prod.fst).Nodup) (htmp : ∀ tmp ∈ tmpDir, Sorted tmp)
    (hsub : ∀ tmp ∈ tmpDir, ∀ p ∈ tmp, p.1 ∈ roots.map Prod.fst)
    (himport : importItems sha256 height tmpDir (syncItems roots) = some snapshot) :
    snapshot = importDir sha256 height roots := by
  obtain ⟨hh, hw, d, hd, hmeta⟩ := (importItems_eq_some_iff hroots hn).mp himport
  obtain rfl := eq_of_writtenDir hd
  have hwritten : updateMetadataFile sha256 height
      (insertPairs (roots.map (treeFiles sha256 height)) (tmpDir.getD [])) = some (importDir sha256 height roots) := by
    cases tmpDir with
    | none => exact updateMetadataFile_written hsha hroots hn hh hw hnd List.Pairwise.nil (by simp)
    | some tmp => exact updateMetadataFile_written hsha hroots hn hh hw hnd (htmp tmp rfl) (hsub tmp rfl)
  exact Option.some.inj (hmeta.symm.trans hwritten)

end Written

theorem names_loadMultiTree_perm {snapshot : SnapshotDir N} {t₀ : MultiTree N} (h : loadMultiTree snapshot = some t₀) :
    t₀.names.Perm (snapshot.trees.map NamedTree.name) ∧ snapshot.initialVersion ≤ maxInt64 := by
  unfold loadMultiTree at h
  split_ifs at h with hneg
  obtain rfl := Option.some.inj h
  rw [not_or, not_lt, not_lt] at hneg
  refine ⟨?_, hneg.2⟩
  have hsort := (List.perm_insertionSort (fun a b : NamedTree N => a.name ≤ b.name) snapshot.trees).map NamedTree.name
  simp only [MultiTree.names, MultiTree.assignInitialVersion]
  split_ifs
  · rw [List.map_map]
    exact hsort
  · exact hsort

end IavlStore.Db
