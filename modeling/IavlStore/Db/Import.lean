import IavlStore.Db.Rollback

/-! A state-sync import, as far as the directory is concerned. The trees of the stream are
written under a temporary name with the height as their version; the metadata records that
height and the one after it as the initial version. Then the directory gets its name, the
`current` link is moved, and the snapshots before the height are removed. The log stays. -/

namespace IavlStore.Db

open IavlStore.Base.Encoding IavlStore.Base.SortedPairs IavlStore.Tree IavlStore.Multi

variable {N : Type} [LinearOrder N] {W : WalLog (WALEntry N)}

/-- Every tree that is imported has the height as its version. -/
def importTrees (height : ℕ) (roots : List (N × Option (Node Bytes Bytes))) : List (NamedTree N) :=
  MultiTree.sortTrees (roots.map fun r => ⟨r.1, ⟨height, r.2⟩⟩)

/-- The first entry of the log is to lead to the version after the height. -/
def importDir (sha256 : Bytes → Bytes) (height : ℕ) (roots : List (N × Option (Node Bytes Bytes))) :
    SnapshotDir N :=
  ⟨⟨height, (importTrees height roots).map fun e => ⟨e.name, height, e.tree.rootHash sha256⟩⟩, height + 1,
    importTrees height roots⟩

/-- Without a tree there is no temporary directory, a snapshot of the height is not
replaced, and a link that was left over is in the way. -/
def finalize (sha256 : Bytes → Bytes) (height : ℕ) (roots : List (N × Option (Node Bytes Bytes)))
    (disk : Disk N W) : Option (Disk N W) :=
  if maxInt64 < height ∨ roots = [] ∨ (lookupPair height disk.snapshots).isSome ∨ disk.currentTmp.isSome then
    none
  else
    some { disk with
      snapshots := disk.snapshots ++ [(height, importDir sha256 height roots)]
      current := height }

def clearSnapshotsBefore (height : ℕ) (disk : Disk N W) : Disk N W :=
  { disk with snapshots := disk.snapshots.filter fun p => height ≤ p.1 }

/-- Import and clear what is older. -/
def restoreDir (sha256 : Bytes → Bytes) (height : ℕ) (roots : List (N × Option (Node Bytes Bytes)))
    (disk : Disk N W) : Option (Disk N W) :=
  (finalize sha256 height roots disk).map (clearSnapshotsBefore height)

theorem restoreDir_eq_some {sha256 : Bytes → Bytes} {height : ℕ} {roots : List (N × Option (Node Bytes Bytes))}
    {disk disk' : Disk N W} (h : restoreDir sha256 height roots disk = some disk') :
    height ≤ maxInt64 ∧ roots ≠ [] ∧ lookupPair height disk.snapshots = none ∧ disk.currentTmp = none ∧
      disk' = { disk with
        snapshots := (disk.snapshots.filter fun p => height ≤ p.1) ++ [(height, importDir sha256 height roots)]
        current := height } := by
  obtain ⟨d, hf, rfl⟩ := Option.map_eq_some_iff.mp h
  unfold finalize at hf
  split_ifs at hf with hc
  obtain rfl := Option.some.inj hf
  simp only [not_or, not_lt, Option.not_isSome_iff_eq_none] at hc
  exact ⟨hc.1, hc.2.1, hc.2.2.1, hc.2.2.2, by simp [clearSnapshotsBefore]⟩

end IavlStore.Db
