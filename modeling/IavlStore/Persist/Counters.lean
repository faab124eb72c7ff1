import IavlStore.Persist.Import

/-! The narrow counters of the snapshot writer and the importer. When the writing of a branch begins,
the trees before it that have no parent yet are the left siblings on the way down from the root,
so they are no more than the height. Heights, counts of pending trees and the indices computed
from them therefore fit in the types that hold them. -/

namespace IavlStore.Persist

open IavlStore.Base.Encoding IavlStore.Tree

/-! ### The snapshot writer -/

/-- A call of `writeRecursive` for a branch. -/
structure BranchCall where
  height : ℕ
  size : ℕ
  left : StoredNode
  right : StoredNode
  writer : SnapshotWriter

/-- The calls for branches that are made to write a node. -/
def branchCalls : StoredNode → SnapshotWriter → List BranchCall
  | .leaf .., _ => []
  | .branch h s _ _ l r, w => ⟨h, s, l, r, w⟩ :: (branchCalls l w ++ branchCalls r (w.writeRecursive l))

namespace BranchCall

variable (c : BranchCall)

/-- The trees before this one that have no parent yet. -/
def pending : ℕ := c.writer.leafCounter - c.writer.branchCounter

/-- The number of leaves written before those of the right child. -/
def keyLeaf : ℕ := (c.writer.writeRecursive c.left).leafCounter

/-- The index of the record of the branch. -/
def index : ℕ := ((c.writer.writeRecursive c.left).writeRecursive c.right).branchCounter

/-- The counters are in order, what is stored of them in narrow types is what they are, and the index
formulas on these types give the numbers they give on integers. -/
structure Exact : Prop where
  le : c.writer.branchCounter ≤ c.writer.leafCounter
  height : int8 c.height = c.height
  size : c.size = count c.left + count c.right ∧ c.size < 2 ^ 32
  preTrees : u32 ((c.writer.leafCounter : ℤ) - c.writer.branchCounter) % 2 ^ 8 = c.pending
  keyLeaf : c.keyLeaf = c.writer.leafCounter + count c.left
  index : c.index = c.writer.branchCounter + (count c.left - 1) + (count c.right - 1)
  startLeaf : (getStartLeaf c.index c.size c.pending : ℤ) = c.index + 2 - c.size + c.pending
  endLeaf : (getEndLeaf c.index c.pending : ℤ) = c.index + c.pending + 1
  leftBranch : 1 < count c.left → (getLeftBranch c.keyLeaf c.pending : ℤ) = c.keyLeaf - c.pending - 2
  rightBranch : 1 < count c.right → (u32 ((c.index : ℤ) - 1) : ℤ) = c.index - 1

end BranchCall

variable {sha256 : Bytes → Bytes} {t : Node Bytes Bytes} {w : SnapshotWriter}

/-- The counters do not wrap. -/
theorem counters_eq (p : StoredNode) (hL : w.leafCounter + count p < 2 ^ 32) (hBL : w.branchCounter ≤ w.leafCounter) :
    (w.writeRecursive p).leafCounter = w.leafCounter + count p ∧
      (w.writeRecursive p).branchCounter = w.branchCounter + (count p - 1) := by
  induction p generalizing w with
  | leaf v k x hash =>
    simp only [count] at hL
    simp only [SnapshotWriter.writeRecursive, SnapshotWriter.writeLeaf, SnapshotWriter.writeKeyValue, count, u32]
    omega
  | branch h s v hash l r ihl ihr =>
    have hl := count_pos l
    have hr := count_pos r
    rw [count] at hL
    obtain ⟨hleft, hleft'⟩ := ihl (w := w) (by omega) hBL
    obtain ⟨hright, hright'⟩ := ihr (w := w.writeRecursive l) (by omega) (by omega)
    simp only [SnapshotWriter.writeRecursive, SnapshotWriter.writeBranch, count, u32]
    omega

theorem BranchCall.exact {c : BranchCall} (hBL : c.writer.branchCounter ≤ c.writer.leafCounter) (hh : c.height < 128)
    (hs : c.size = count c.left + count c.right) (hL : c.writer.leafCounter + c.size < 2 ^ 32)
    (hp : c.pending < 2 ^ 8) : c.Exact := by
  have hl := count_pos c.left
  have hr := count_pos c.right
  have hpending : c.pending = c.writer.leafCounter - c.writer.branchCounter := rfl
  obtain ⟨hleaf, hbranch⟩ := counters_eq (w := c.writer) c.left (by omega) hBL
  obtain ⟨-, hbranch'⟩ := counters_eq (w := c.writer.writeRecursive c.left) c.right (by omega) (by omega)
  have hkey : c.keyLeaf = c.writer.leafCounter + count c.left := hleaf
  have hindex : c.index = c.writer.branchCounter + (count c.left - 1) + (count c.right - 1) := by
    rw [BranchCall.index, hbranch', hbranch]
  refine ⟨hBL, int8_of_lt hh, ⟨hs, by omega⟩, ?_, hkey, hindex, ?_, ?_, fun hleft => ?_, fun hright => ?_⟩
  · simp only [u32]
    omega
  · simp only [getStartLeaf, u32]
    omega
  · simp only [getEndLeaf, u32]
    omega
  · simp only [getLeftBranch, u32]
    omega
  · simp only [u32]
    omega

/-- On the way down the pending trees grow by one at most where the height falls by one. -/
theorem branchCalls_exact (hb : t.Balanced) (hh : t.height < 128) (hL : w.leafCounter + t.size < 2 ^ 32)
    (hBL : w.branchCounter ≤ w.leafCounter) (hpending : w.leafCounter - w.branchCounter + t.height < 2 ^ 8) :
    ∀ c ∈ branchCalls (t.stored sha256) w,
      c.Exact ∧ c.pending ≤ w.leafCounter - w.branchCounter + t.height := by
  induction t generalizing w with
  | leaf v k x => simp [Node.stored, branchCalls]
  | branch h sz v k l r ihl ihr =>
    obtain ⟨hheight, hsize, -, -, hl, hr⟩ := hb
    rw [Node.height_branch] at hh hpending ⊢
    rw [Node.size_branch] at hL
    have hcl := count_stored sha256 hl
    have hcr := count_stored sha256 hr
    have hcl' := count_pos (l.stored sha256)
    have hcr' := count_pos (r.stored sha256)
    obtain ⟨hleaf, hbranch⟩ := counters_eq (w := w) (l.stored sha256) (by omega) hBL
    rw [Node.stored, branchCalls]
    refine List.forall_mem_cons.mpr ⟨⟨?_, ?_⟩, List.forall_mem_append.mpr ⟨fun c hc => ?_, fun c hc => ?_⟩⟩
    · have hpend : (⟨h, sz, l.stored sha256, r.stored sha256, w⟩ : BranchCall).pending ≤
          w.leafCounter - w.branchCounter := le_rfl
      exact BranchCall.exact hBL hh (by dsimp only; omega) hL (by omega)
    · exact Nat.le_add_right _ _
    · obtain ⟨hexact, hle⟩ := ihl hl (by omega) (by omega) hBL (by omega) c hc
      exact ⟨hexact, by omega⟩
    · obtain ⟨hexact, hle⟩ := ihr hr (by omega) (by omega) (by omega) (by omega) c hc
      exact ⟨hexact, by omega⟩

/-! ### The importer -/

/-- The nodes with a height that are added, with the importer at that moment. -/
def branchAdds (sha256 : Bytes → Bytes) : List ExportNode → Importer → List (ExportNode × Importer)
  | [], _ => []
  | n :: ns, i =>
    let rest := match i.add sha256 n with
      | some (.ok i) => branchAdds sha256 ns i
      | _ => []
    if n.height = 0 then rest else (n, i) :: rest

theorem branchAdds_append (xs ys : List ExportNode) (i : Importer) :
    ∃ more, branchAdds sha256 (xs ++ ys) i = branchAdds sha256 xs i ++ more ∧
      ∀ c ∈ more, ∃ i', i.addAll sha256 xs = some (.ok i') ∧ c ∈ branchAdds sha256 ys i' := by
  induction xs generalizing i with
  | nil => exact ⟨branchAdds sha256 ys i, rfl, fun c hc => ⟨i, rfl, hc⟩⟩
  | cons n xs ih =>
    rw [List.cons_append, branchAdds, branchAdds, Importer.addAll]
    rcases hadd : i.add sha256 n with _ | e | i'
    · exact ⟨[], by simp, by simp⟩
    · exact ⟨[], by simp, by simp⟩
    · obtain ⟨more, hmore, hlast⟩ := ih i'
      refine ⟨more, ?_, hlast⟩
      dsimp only
      rw [hmore]
      split_ifs <;> rfl

theorem branchAdds_singleton (n : ExportNode) (i : Importer) :
    branchAdds sha256 [n] i = if n.height = 0 then [] else [(n, i)] := by
  rw [branchAdds]
  rcases i.add sha256 n with _ | e | i' <;> rfl

theorem addAll_singleton (n : ExportNode) (i : Importer) : i.addAll sha256 [n] = i.add sha256 n := by
  rw [Importer.addAll]
  rcases i.add sha256 n with _ | e | i' <;> rfl

theorem addAll_append {xs ys : List ExportNode} {i i' : Importer} (h : i.addAll sha256 (xs ++ ys) = some (.ok i')) :
    ∃ m, i.addAll sha256 xs = some (.ok m) ∧ m.addAll sha256 ys = some (.ok i') := by
  induction xs generalizing i with
  | nil => exact ⟨i, rfl, h⟩
  | cons n xs ih =>
    rw [List.cons_append, Importer.addAll] at h
    rw [Importer.addAll]
    rcases hadd : i.add sha256 n with _ | e | m
    · simp only [hadd, reduceCtorEq] at h
    · simp only [hadd, Option.some.injEq, reduceCtorEq] at h
    · simp only [hadd] at h ⊢
      exact ih h

/-- A leaf goes on the stack, and a branch takes the place of its children. -/
theorem length_nodeStack_add {n : ExportNode} {i i' : Importer} (h : i.add sha256 n = some (.ok i')) :
    if n.height = 0 then i'.nodeStack.length = i.nodeStack.length + 1
    else 2 ≤ i.nodeStack.length ∧ i'.nodeStack.length + 1 = i.nodeStack.length := by
  obtain ⟨w, leaves, nodes⟩ := i
  unfold Importer.add at h
  split_ifs at h with hversion hheight
  · cases h
  · rw [if_pos hheight]
    cases h
    rfl
  · rw [if_neg hheight]
    rcases leaves with _ | ⟨x, _ | ⟨y, leaves⟩⟩ <;> rcases nodes with _ | ⟨p, _ | ⟨q, nodes⟩⟩ <;> cases h
    exact ⟨by simp, by simp⟩

/-- Over the pending subtrees of a tree there are at most as many more as it is high, and the whole
tree is one more. -/
theorem branchAdds_exportNodes (hb : t.Balanced) (hh : t.height < 128) (i : Importer) :
    (∀ c ∈ branchAdds sha256 (exportNodes t) i, i.nodeStack.length + 2 ≤ c.2.nodeStack.length ∧
        c.2.nodeStack.length ≤ i.nodeStack.length + 1 + t.height ∧ 0 ≤ c.1.height ∧ c.1.height < 128) ∧
      ∀ i', i.addAll sha256 (exportNodes t) = some (.ok i') → i'.nodeStack.length = i.nodeStack.length + 1 := by
  induction t generalizing i with
  | leaf v k x =>
    refine ⟨fun c hc => ?_, fun i' h => ?_⟩
    · rw [exportNodes, branchAdds_singleton, if_pos rfl] at hc
      cases hc
    · rw [exportNodes, addAll_singleton] at h
      exact length_nodeStack_add h
  | branch h sz v k l r ihl ihr =>
    obtain ⟨hheight, -, -, -, hl, hr⟩ := hb
    rw [Node.height_branch] at hh ⊢
    obtain ⟨n, hn⟩ : ∃ n : ExportNode, ⟨k, none, int64 v, int8 h⟩ = n := ⟨_, rfl⟩
    have hint : n.height = h := by
      rw [← hn]
      dsimp only
      exact int8_of_lt hh
    have hne : n.height ≠ 0 := by omega
    obtain ⟨hleft, hleft'⟩ := ihl hl (by omega) i
    rw [exportNodes, hn]
    obtain ⟨more, hmore, hroot⟩ := branchAdds_append (exportNodes l ++ exportNodes r) [n] i
    obtain ⟨more', hmore', hright⟩ := branchAdds_append (exportNodes l) (exportNodes r) i
    -- both children lie on the stack when the branch is added
    have hchildren : ∀ m, i.addAll sha256 (exportNodes l ++ exportNodes r) = some (.ok m) →
        m.nodeStack.length = i.nodeStack.length + 2 := by
      intro m hm
      obtain ⟨m', hm', hm⟩ := addAll_append hm
      have hone := hleft' m' hm'
      have htwo := (ihr hr (by omega) m').2 m hm
      omega
    refine ⟨fun c hc => ?_, fun i' h' => ?_⟩
    · rw [hmore, hmore', List.mem_append, List.mem_append] at hc
      rcases hc with (hc | hc) | hc
      · have := hleft c hc
        omega
      · obtain ⟨m, hm, hc⟩ := hright c hc
        have hone := hleft' m hm
        have := (ihr hr (by omega) m).1 c hc
        omega
      · obtain ⟨m, hm, hc⟩ := hroot c hc
        rw [branchAdds_singleton, if_neg hne, List.mem_singleton] at hc
        subst hc
        have htwo := hchildren m hm
        dsimp only
        omega
    · obtain ⟨m, hm, hadd⟩ := addAll_append h'
      have htwo := hchildren m hm
      rw [addAll_singleton] at hadd
      have hlast := length_nodeStack_add hadd
      rw [if_neg hne] at hlast
      omega

/-- In a balanced tree with fewer than `2 ^ 32` leaves, the height, the counts of pending trees of
the snapshot writer and of the importer and the indices computed from them fit in their types. -/
theorem narrow_counters_exact (sha256 : Bytes → Bytes) (t : Node Bytes Bytes) (hb : t.Balanced)
    (ht : t.toList.length < 2 ^ 32) :
    t.height < 128 ∧
      (∀ c ∈ branchCalls (t.stored sha256) newSnapshotWriter, c.Exact ∧ c.pending ≤ t.height) ∧
      ∀ c ∈ branchAdds sha256 (exportNodes t) newImporter,
        2 ≤ c.2.nodeStack.length ∧ c.2.nodeStack.length - 2 ≤ t.height ∧
          (c.2.nodeStack.length - 2) % 2 ^ 8 = c.2.nodeStack.length - 2 ∧ ((c.1.height % 2 ^ 8).toNat : ℤ) = c.1.height := by
  rw [← hb.size_eq] at ht
  have hh := height_lt_of_size_lt hb ht
  refine ⟨by omega, fun c hc => ?_, fun c hc => ?_⟩
  · have hzero : newSnapshotWriter.leafCounter = 0 ∧ newSnapshotWriter.branchCounter = 0 := ⟨rfl, rfl⟩
    obtain ⟨hexact, hle⟩ := branchCalls_exact hb (by omega) (by omega) (by omega) (by omega) c hc
    exact ⟨hexact, by omega⟩
  · have hzero : newImporter.nodeStack.length = 0 := rfl
    have hadd := (branchAdds_exportNodes hb (by omega) newImporter).1 c hc
    omega

/-- In a tree of three leaves one tree is pending when the writing of its right child begins. -/
theorem narrow_counters_threeLeaves :
    (branchCalls (threeLeaves.stored fun _ => List.replicate 32 0) newSnapshotWriter).map BranchCall.pending = [0, 1] ∧
      ∀ c ∈ branchCalls (threeLeaves.stored fun _ => List.replicate 32 0) newSnapshotWriter, c.pending ≤ 2 :=
  ⟨by decide, fun c hc => ((narrow_counters_exact _ threeLeaves threeLeaves_inv.balanced (by decide)).2.1 c hc).2⟩

end IavlStore.Persist
