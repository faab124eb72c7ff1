import IavlStore.Persist.Export
import IavlStore.Tree.Proofs

/-! Importing a tree from a stream of nodes. Two stacks stand for the subtrees read so far:
how many leaves were written up to the end of each, and what the hash of a parent needs. A
branch takes the two subtrees on top. The nodes of a tree in post-order give the files that
the snapshot writer gives. A branch that finds fewer than two subtrees is an access out of
range, and any other stream ends in an error or in files that can be opened. -/

namespace IavlStore.Persist

open IavlStore.Base.Encoding IavlStore.Base.Slices IavlStore.Tree

/-- Why an import fails. -/
inductive ImportError where
  | negativeVersion (version : ℤ)
  | stackSize (found : ℕ)
  | writeFailed

/-- What is read of a node on the stack. -/
structure PendingNode where
  size : ℕ
  hash : Bytes

/-- The top of a stack comes first. -/
structure Importer where
  writer : SnapshotWriter
  leavesStack : List ℕ
  nodeStack : List PendingNode

def newImporter : Importer := ⟨newSnapshotWriter, [], []⟩

section

variable (sha256 : Bytes → Bytes)

/-- A node of height zero is a leaf. The result `none` is an access out of range. -/
def Importer.add (n : ExportNode) (i : Importer) : Option (Except ImportError Importer) :=
  if n.version < 0 then some (.error (.negativeVersion n.version))
  else
    let version := n.version.toNat
    if n.height = 0 then
      let value := n.value.getD []
      let nodeHash := sha256 (leafHashBytes sha256 0 1 version n.key value)
      let w := i.writer.writeLeaf version n.key value nodeHash
      some (.ok ⟨w, w.leafCounter :: i.leavesStack, ⟨1, nodeHash⟩ :: i.nodeStack⟩)
    else
      match i.leavesStack, i.nodeStack with
      | _ :: keyLeaf :: leaves, rightNode :: leftNode :: nodes =>
        let height := (n.height % 2 ^ 8).toNat
        let size := leftNode.size + rightNode.size
        let nodeHash := sha256 (branchHashBytes height size version leftNode.hash rightNode.hash)
        let preTrees := nodes.length % 2 ^ 8
        let w := i.writer.writeBranch version size height preTrees keyLeaf nodeHash
        some (.ok ⟨w, w.leafCounter :: leaves, ⟨size, nodeHash⟩ :: nodes⟩)
      | _, _ => none

def Importer.addAll : List ExportNode → Importer → Option (Except ImportError Importer)
  | [], i => some (.ok i)
  | n :: ns, i =>
    match i.add sha256 n with
    | some (.ok i) => i.addAll ns
    | failed => failed

/-- The files of a writer that has written a number of leaves. -/
def flushFiles (version leaves : ℕ) (w : SnapshotWriter) : Except ImportError Files :=
  if leaves = 0 then .ok ⟨[], [], [], metadataBytes version⟩
  else if w.nodes.length < maxFileSize ∧ w.leaves.length < maxFileSize ∧ w.kvs.length < maxFileSize
    then .ok ⟨w.nodes, w.leaves, w.kvs, metadataBytes version⟩
  else .error .writeFailed

/-- One tree must be left on the stacks, or none when nothing was read. -/
def Importer.finish (version : ℕ) (i : Importer) : Except ImportError Files :=
  match i.leavesStack.length with
  | 0 => flushFiles version 0 i.writer
  | 1 => flushFiles version i.writer.leafCounter i.writer
  | found => .error (.stackSize found)

def doImport (version : ℤ) (nodes : List ExportNode) : Option (Except ImportError Files) :=
  if version < 0 then some (.error (.negativeVersion version))
  else (newImporter.addAll sha256 nodes).map fun r => r.bind (Importer.finish version.toNat)

end

variable {sha256 : Bytes → Bytes} {t : Node Bytes Bytes}

/-! ### Importing what was exported -/

theorem writeSnapshot_eq_flushFiles (version : ℕ) (p : StoredNode) :
    (writeSnapshot version (some p)).elim (.error .writeFailed) .ok =
      flushFiles version (newSnapshotWriter.writeRecursive p).leafCounter (newSnapshotWriter.writeRecursive p) := by
  simp only [writeSnapshot, flushFiles]
  split_ifs <;> rfl

/-- As many subtrees are pending as there were more leaves than branches. -/
def Importer.Counted (i : Importer) : Prop :=
  ((i.writer.leafCounter : ℤ) - i.writer.branchCounter) % 2 ^ 32 = (i.nodeStack.length : ℤ) % 2 ^ 32

/-- The importer after a whole subtree. -/
def Importer.push (sha256 : Bytes → Bytes) (t : Node Bytes Bytes) (i : Importer) : Importer :=
  let w := i.writer.writeRecursive (t.stored sha256)
  ⟨w, w.leafCounter :: i.leavesStack, ⟨t.size, t.hashNode sha256⟩ :: i.nodeStack⟩

/-- The counters move by one tree, modulo their width. -/
theorem counters_writeRecursive (p : StoredNode) (w : SnapshotWriter) :
    (((w.writeRecursive p).leafCounter : ℤ) - (w.writeRecursive p).branchCounter) % 2 ^ 32 =
      ((w.leafCounter : ℤ) - w.branchCounter + 1) % 2 ^ 32 := by
  induction p generalizing w with
  | leaf v k x hash =>
    simp only [SnapshotWriter.writeRecursive, SnapshotWriter.writeLeaf, SnapshotWriter.writeKeyValue, u32]
    omega
  | branch h s v hash l r ihl ihr =>
    simp only [SnapshotWriter.writeRecursive, SnapshotWriter.writeBranch, u32]
    have hl := ihl w
    have hr := ihr (w.writeRecursive l)
    omega

theorem Importer.Counted.push {i : Importer} (h : i.Counted) (t : Node Bytes Bytes) : (i.push sha256 t).Counted := by
  have hw := counters_writeRecursive (t.stored sha256) i.writer
  unfold Counted at h ⊢
  simp only [Importer.push, List.length_cons]
  rw [hw]
  push_cast
  omega

theorem Importer.add_leaf {v : ℕ} (hv : v < 2 ^ 63) (k x : Bytes) (i : Importer) :
    i.add sha256 ⟨k, some x, int64 v, 0⟩ = some (.ok (i.push sha256 (.leaf v k x))) := by
  rw [int64_of_lt hv, Importer.add, if_neg (by simp), if_pos rfl]
  rfl

/-- A branch is written over the two subtrees before it. -/
theorem Importer.add_branch {h sz v : ℕ} {k : Bytes} {l r : Node Bytes Bytes} {i : Importer} (hi : i.Counted)
    (hh : 0 < h) (h128 : h < 128) (hs : sz = l.size + r.size) (hv : v < 2 ^ 63) :
    ((i.push sha256 l).push sha256 r).add sha256 ⟨k, none, int64 v, int8 h⟩ =
      some (.ok (i.push sha256 (.branch h sz v k l r))) := by
  have hversion : ¬ int64 v < 0 := by rw [int64_of_lt hv]; omega
  have hheight : ¬ int8 h = 0 := by rw [int8_of_lt h128]; omega
  have hv' : (int64 v).toNat = v := by rw [int64_of_lt hv]; rfl
  have hh' : (int8 h % 2 ^ 8).toNat = h := by rw [int8_of_lt h128]; omega
  have hpre : u32 ((i.writer.leafCounter : ℤ) - i.writer.branchCounter) % 2 ^ 8 = i.nodeStack.length % 2 ^ 8 := by
    unfold Importer.Counted at hi
    simp only [u32]
    omega
  simp only [Importer.add, hversion, hheight, if_false, Importer.push, hv', hh', Node.stored,
    SnapshotWriter.writeRecursive, SnapshotWriter.writeBranch, hpre, Node.hashNode, Node.size_branch, hs]

/-- The nodes of a subtree are imported as the snapshot writer writes the subtree. -/
theorem Importer.addAll_exportNodes {n : ℕ} (ht : t.Inv n) (hn : n < 2 ^ 63) (hs : t.size < 2 ^ 63) {i : Importer}
    (hi : i.Counted) (rest : List ExportNode) :
    i.addAll sha256 (exportNodes t ++ rest) = (i.push sha256 t).addAll sha256 rest := by
  induction t generalizing i rest with
  | leaf v k x =>
    have hle : v ≤ n := ht.version_le
    rw [exportNodes, List.singleton_append, Importer.addAll, Importer.add_leaf (by omega)]
  | branch h sz v k l r ihl ihr =>
    obtain ⟨hh, hsz, -⟩ := ht.balanced
    have hheight := ht.balanced.height_lt hs
    rw [Node.height_branch] at hheight
    rw [Node.size_branch] at hs
    have hversion := ht.version_le
    rw [Node.version_branch] at hversion
    have hadd : ((i.push sha256 l).push sha256 r).add sha256 ⟨k, none, int64 v, int8 h⟩ =
        some (.ok (i.push sha256 (.branch h sz v k l r))) :=
      Importer.add_branch hi (by omega) hheight hsz (by omega)
    rw [exportNodes, List.append_assoc, List.append_assoc, ihl ht.left (by omega) hi, ihr ht.right (by omega) (hi.push l),
      List.singleton_append, Importer.addAll, hadd]

/-- The nodes of a tree in post-order are imported into the files that the snapshot writer
writes for the tree. -/
theorem doImport_treeNodes {n version : ℕ} (t : Option (Node Bytes Bytes)) (hn : n < 2 ^ 63)
    (ht : ∀ u ∈ t, u.Inv n ∧ u.size < 2 ^ 63) :
    doImport sha256 version (treeNodes t) =
      some ((writeSnapshot version (t.map (Node.stored sha256))).elim (.error .writeFailed) .ok) := by
  rw [doImport, if_neg (by omega)]
  rcases t with _ | t
  · rfl
  · obtain ⟨hi, hs⟩ := ht t rfl
    have himport : newImporter.addAll sha256 (exportNodes t ++ []) = (newImporter.push sha256 t).addAll sha256 [] :=
      Importer.addAll_exportNodes hi hn hs (by simp [Importer.Counted, newImporter, newSnapshotWriter]) []
    rw [List.append_nil] at himport
    rw [treeNodes, Option.elim_some, himport, Option.map_some, writeSnapshot_eq_flushFiles]
    rfl

theorem stored_toNode {p : StoredNode} (h : p.HashOk sha256) : p.toNode.stored sha256 = p := by
  induction p with
  | leaf v k x hash => rw [StoredNode.toNode, Node.stored, ← h]
  | branch ht sz v hash l r ihl ihr =>
    obtain ⟨hhash, hl, hr⟩ := h
    rw [StoredNode.toNode, Node.stored, ihl hl, ihr hr, hhash]
    rfl

/-- A tree whose nodes carry their hashes is written as the import of its nodes writes it. -/
theorem import_reproduces_snapshot {n : ℕ} (version : ℕ) (p : Option StoredNode) (hn : n < 2 ^ 63)
    (hp : ∀ q ∈ p, q.HashOk sha256 ∧ q.toNode.Inv n ∧ q.toNode.size < 2 ^ 63) :
    doImport sha256 version (treeNodes (p.map StoredNode.toNode)) =
      some ((writeSnapshot version p).elim (.error .writeFailed) .ok) := by
  rw [doImport_treeNodes (p.map StoredNode.toNode) hn]
  · rcases p with _ | p
    · rfl
    · rw [Option.map_some, Option.map_some, stored_toNode (hp p rfl).1]
  · intro u hu
    obtain ⟨q, hq, rfl⟩ := Option.map_eq_some_iff.mp hu
    exact (hp q hq).2

theorem import_reproduces_threeLeaves :
    ∃ f, writeSnapshot 7 (some (threeLeaves.stored firstBytes)) = some f ∧
      doImport firstBytes 7 (exportNodes threeLeaves) = some (.ok f) := by
  have hnode := Node.toNode_stored firstBytes threeLeaves_inv.ordered
  have hstored : ∀ q ∈ some (threeLeaves.stored firstBytes),
      q.HashOk firstBytes ∧ q.toNode.Inv 5 ∧ q.toNode.size < 2 ^ 63 := by
    rintro q ⟨⟩
    rw [hnode]
    exact ⟨Node.hashOk_stored _ threeLeaves_inv.ordered, threeLeaves_inv, by decide⟩
  have himport := import_reproduces_snapshot 7 _ (by decide) hstored
  rw [Option.map_some, hnode] at himport
  have hwrite :=
    (writeSnapshot_eq_some_iff 7 threeLeaves_inv.balanced (by decide) length_firstBytes).mpr ⟨by decide, rfl⟩
  rw [hwrite] at himport
  exact ⟨_, hwrite, himport⟩

/-! ### Arbitrary streams -/

/-- The number of leaves of a stream. -/
def leafCount (ns : List ExportNode) : ℕ := ns.countP fun n => n.height = 0

def branchCount (ns : List ExportNode) : ℕ := ns.countP fun n => n.height ≠ 0

/-- Over `depth` subtrees, every branch that is reached without a negative version finds at
least two subtrees. -/
def Supplied (depth : ℕ) (ns : List ExportNode) : Prop :=
  ∀ before n after, ns = before ++ n :: after → n.height ≠ 0 → (∀ m ∈ before ++ [n], 0 ≤ m.version) →
    2 + branchCount before ≤ depth + leafCount before

@[simp] theorem leafCount_cons (n : ExportNode) (ns : List ExportNode) :
    leafCount (n :: ns) = leafCount ns + if n.height = 0 then 1 else 0 := by
  simp [leafCount, List.countP_cons]

@[simp] theorem branchCount_cons (n : ExportNode) (ns : List ExportNode) :
    branchCount (n :: ns) = branchCount ns + if n.height = 0 then 0 else 1 := by
  rw [branchCount, branchCount, List.countP_cons]
  split_ifs <;> simp_all

theorem Supplied.leaf {depth : ℕ} {n : ExportNode} {ns : List ExportNode} (hv : 0 ≤ n.version) (hn : n.height = 0) :
    Supplied depth (n :: ns) ↔ Supplied (depth + 1) ns := by
  constructor
  · intro h before m after heq hm hpos
    have hle := h (n :: before) m after (by rw [heq]; rfl) hm (by simpa [hv] using hpos)
    rw [leafCount_cons, branchCount_cons, if_pos hn, if_pos hn] at hle
    omega
  · intro h before m after heq hm hpos
    rcases before with _ | ⟨b, before⟩
    · exact absurd hn ((List.cons.inj heq).1 ▸ hm)
    · obtain ⟨rfl, htail⟩ := List.cons.inj heq
      have hle := h before m after htail hm fun x hx => hpos x (List.mem_cons_of_mem _ hx)
      rw [leafCount_cons, branchCount_cons, if_pos hn, if_pos hn]
      omega

theorem Supplied.branch {depth : ℕ} {n : ExportNode} {ns : List ExportNode} (hv : 0 ≤ n.version)
    (hn : n.height ≠ 0) : Supplied depth (n :: ns) ↔ 2 ≤ depth ∧ Supplied (depth - 1) ns := by
  constructor
  · intro h
    have hdepth := h [] n ns rfl hn (by simpa using hv)
    simp only [branchCount, leafCount, List.countP_nil] at hdepth
    refine ⟨hdepth, fun before m after heq hm hpos => ?_⟩
    have hle := h (n :: before) m after (by rw [heq]; rfl) hm (by simpa [hv] using hpos)
    rw [leafCount_cons, branchCount_cons, if_neg hn, if_neg hn] at hle
    omega
  · rintro ⟨hdepth, h⟩ before m after heq hm hpos
    rcases before with _ | ⟨b, before⟩
    · simp only [branchCount, leafCount, List.countP_nil]
      omega
    · obtain ⟨rfl, htail⟩ := List.cons.inj heq
      have hle := h before m after htail hm fun x hx => hpos x (List.mem_cons_of_mem _ hx)
      rw [leafCount_cons, branchCount_cons, if_neg hn, if_neg hn]
      omega

theorem supplied_of_negative {depth : ℕ} {n : ExportNode} (ns : List ExportNode) (hv : n.version < 0) :
    Supplied depth (n :: ns) := by
  intro before m after heq hm hpos
  have hmem : n ∈ before ++ [m] := by
    rcases before with _ | ⟨b, before⟩
    · simp [(List.cons.inj heq).1]
    · simp [(List.cons.inj heq).1]
  exact absurd (hpos n hmem) (not_le.mpr hv)

/-- A binary tree of stream nodes. -/
inductive StreamTree where
  | leaf (n : ExportNode)
  | branch (n : ExportNode) (left right : StreamTree)

namespace StreamTree

def postOrder : StreamTree → List ExportNode
  | leaf n => [n]
  | branch n l r => l.postOrder ++ r.postOrder ++ [n]

/-- Exactly the leaves have height zero. -/
def Heights : StreamTree → Prop
  | leaf n => n.height = 0
  | branch n l r => n.height ≠ 0 ∧ l.Heights ∧ r.Heights

theorem leafCount_postOrder {t : StreamTree} (h : t.Heights) :
    leafCount t.postOrder = branchCount t.postOrder + 1 := by
  induction t with
  | leaf n =>
    have hn : n.height = 0 := h
    simp [postOrder, leafCount, branchCount, hn]
  | branch n l r ihl ihr =>
    obtain ⟨hn, hl, hr⟩ := h
    have hl := ihl hl
    have hr := ihr hr
    simp only [leafCount, branchCount] at hl hr
    simp only [postOrder, leafCount, branchCount, List.countP_append, hl, hr]
    simp [hn]
    omega

end StreamTree

/-- The stream is the post-order of at most one binary tree. -/
def IsPostOrder (ns : List ExportNode) : Prop := ns = [] ∨ ∃ t : StreamTree, t.Heights ∧ t.postOrder = ns

/-- The sizes of what the importer has after some leaves and branches. -/
structure Importer.Sized (i : Importer) (depth leaves branches bytes : ℕ) : Prop where
  leavesStack : i.leavesStack.length = depth
  nodeStack : i.nodeStack.length = depth
  nodesLength : i.writer.nodes.length = branches * sizeNode
  leavesLength : i.writer.leaves.length = leaves * sizeLeaf
  kvsLength : i.writer.kvs.length = bytes
  leafCounter : i.writer.leafCounter = leaves % 2 ^ 32

/-- The bytes of the pairs of a stream. -/
def pairsSize (ns : List ExportNode) : ℕ :=
  (ns.map fun n => if n.height = 0 then (pairBytes n.key (n.value.getD [])).length else 0).sum

section Streams

variable {n : ExportNode} {ns : List ExportNode} {i : Importer} {depth leaves branches bytes : ℕ}

theorem exists_cons_cons_of_length {α : Type} {l : List α} (h : 2 ≤ l.length) : ∃ a b rest, l = a :: b :: rest := by
  rcases l with _ | ⟨a, _ | ⟨b, rest⟩⟩
  · simp at h
  · simp at h
  · exact ⟨a, b, rest, rfl⟩

theorem Importer.Sized.add_leaf (hsha : ∀ b, (sha256 b).length = sizeHash)
    (hi : i.Sized depth leaves branches bytes) (hv : 0 ≤ n.version) (hn : n.height = 0) :
    ∃ i', i.add sha256 n = some (.ok i') ∧
      i'.Sized (depth + 1) (leaves + 1) branches (bytes + (pairBytes n.key (n.value.getD [])).length) := by
  refine ⟨_, by rw [Importer.add, if_neg (not_lt.mpr hv), if_pos hn], ?_⟩
  constructor
  · simp [hi.leavesStack]
  · simp [hi.nodeStack]
  · simpa [SnapshotWriter.writeLeaf, SnapshotWriter.writeKeyValue] using hi.nodesLength
  · simp only [SnapshotWriter.writeLeaf, SnapshotWriter.writeKeyValue, List.length_append, hi.leavesLength,
      length_leafRecord (hsha _)]
    ring
  · simp [SnapshotWriter.writeLeaf, SnapshotWriter.writeKeyValue, hi.kvsLength]
  · simp only [SnapshotWriter.writeLeaf, SnapshotWriter.writeKeyValue, hi.leafCounter, u32]
    omega

theorem Importer.Sized.add_branch (hsha : ∀ b, (sha256 b).length = sizeHash)
    (hi : i.Sized depth leaves branches bytes) (hv : 0 ≤ n.version) (hn : n.height ≠ 0) (hd : 2 ≤ depth) :
    ∃ i', i.add sha256 n = some (.ok i') ∧ i'.Sized (depth - 1) leaves (branches + 1) bytes := by
  obtain ⟨w, stack, nodes⟩ := i
  obtain ⟨top, keyLeaf, stack, rfl⟩ := exists_cons_cons_of_length (hi.leavesStack.symm ▸ hd)
  obtain ⟨right, left, nodes, rfl⟩ := exists_cons_cons_of_length (hi.nodeStack.symm ▸ hd)
  have hstack := hi.leavesStack
  have hnodes := hi.nodeStack
  simp only [List.length_cons] at hstack hnodes
  refine ⟨_, by rw [Importer.add, if_neg (not_lt.mpr hv), if_neg hn], ?_⟩
  constructor
  · simp only [List.length_cons]
    omega
  · simp only [List.length_cons]
    omega
  · have hlen := hi.nodesLength
    simp only at hlen
    simp only [SnapshotWriter.writeBranch, List.length_append, hlen, length_branchRecord (hsha _)]
    ring
  · exact hi.leavesLength
  · exact hi.kvsLength
  · exact hi.leafCounter

theorem Importer.add_branch_none (hi : i.Sized depth leaves branches bytes) (hv : 0 ≤ n.version) (hn : n.height ≠ 0)
    (hd : depth < 2) : i.add sha256 n = none := by
  obtain ⟨w, stack, nodes⟩ := i
  have hstack := hi.leavesStack
  rw [Importer.add, if_neg (not_lt.mpr hv), if_neg hn]
  rcases stack with _ | ⟨a, _ | ⟨b, stack⟩⟩
  · rfl
  · rfl
  · simp only [List.length_cons] at hstack
    omega

/-- What an importer does with any stream. -/
theorem Importer.Sized.addAll (hsha : ∀ b, (sha256 b).length = sizeHash)
    (hi : i.Sized depth leaves branches bytes) (ns : List ExportNode) :
    (¬ Supplied depth ns ∧ i.addAll sha256 ns = none) ∨
      (Supplied depth ns ∧ (∃ m ∈ ns, m.version < 0) ∧ ∃ e, i.addAll sha256 ns = some (.error e)) ∨
      (Supplied depth ns ∧ (∀ m ∈ ns, 0 ≤ m.version) ∧ branchCount ns ≤ depth + leafCount ns ∧
        ∃ i', i.addAll sha256 ns = some (.ok i') ∧
          i'.Sized (depth + leafCount ns - branchCount ns) (leaves + leafCount ns) (branches + branchCount ns)
            (bytes + pairsSize ns)) := by
  induction ns generalizing i depth leaves branches bytes with
  | nil =>
    refine .inr (.inr ⟨?_, by simp, by simp [branchCount], i, rfl, ?_⟩)
    · intro before n after heq
      simp at heq
    · simpa [leafCount, branchCount, pairsSize] using hi
  | cons n ns ih =>
    rcases lt_or_ge n.version 0 with hv | hv
    · refine .inr (.inl ⟨supplied_of_negative ns hv, ⟨n, List.mem_cons_self, hv⟩, .negativeVersion n.version, ?_⟩)
      rw [Importer.addAll, Importer.add, if_pos hv]
    · by_cases hn : n.height = 0
      · obtain ⟨i', hadd, hi'⟩ := hi.add_leaf hsha hv hn
        have hall : i.addAll sha256 (n :: ns) = i'.addAll sha256 ns := by rw [Importer.addAll, hadd]
        rw [Supplied.leaf hv hn, hall, leafCount_cons, branchCount_cons, if_pos hn, if_pos hn]
        rcases ih hi' with h | ⟨hs, ⟨m, hm, hneg⟩, he⟩ | ⟨hs, hpos, hle, j, hj, hsized⟩
        · exact .inl h
        · exact .inr (.inl ⟨hs, ⟨m, List.mem_cons_of_mem _ hm, hneg⟩, he⟩)
        · refine .inr (.inr ⟨hs, by simpa [hv] using hpos, by omega, j, hj, ?_⟩)
          have hbytes : bytes + (pairBytes n.key (n.value.getD [])).length + pairsSize ns =
              bytes + pairsSize (n :: ns) := by
            simp [pairsSize, hn, Nat.add_assoc]
          rw [hbytes] at hsized
          convert hsized using 1 <;> omega
      · rw [Supplied.branch hv hn, leafCount_cons, branchCount_cons, if_neg hn, if_neg hn]
        rcases lt_or_ge depth 2 with hd | hd
        · exact .inl ⟨fun h => absurd h.1 (by omega), by rw [Importer.addAll, Importer.add_branch_none hi hv hn hd]⟩
        · obtain ⟨i', hadd, hi'⟩ := hi.add_branch hsha hv hn hd
          have hall : i.addAll sha256 (n :: ns) = i'.addAll sha256 ns := by rw [Importer.addAll, hadd]
          rw [hall]
          rcases ih hi' with ⟨hs, h⟩ | ⟨hs, ⟨m, hm, hneg⟩, he⟩ | ⟨hs, hpos, hle, j, hj, hsized⟩
          · exact .inl ⟨fun hc => hs hc.2, h⟩
          · exact .inr (.inl ⟨⟨hd, hs⟩, ⟨m, List.mem_cons_of_mem _ hm, hneg⟩, he⟩)
          · refine .inr (.inr ⟨⟨hd, hs⟩, by simpa [hv] using hpos, by omega, j, hj, ?_⟩)
            have hbytes : pairsSize ns = pairsSize (n :: ns) := by simp [pairsSize, hn]
            rw [hbytes] at hsized
            convert hsized using 1 <;> omega

/-- The subtrees that a stream leaves, the last one first. -/
theorem exists_streamTrees (ts : List StreamTree) (hts : ∀ t ∈ ts, t.Heights) (hs : Supplied ts.length ns)
    (hpos : ∀ m ∈ ns, 0 ≤ m.version) :
    ∃ ts' : List StreamTree, (∀ t ∈ ts', t.Heights) ∧ ts'.length + branchCount ns = ts.length + leafCount ns ∧
      ts'.reverse.flatMap StreamTree.postOrder = ts.reverse.flatMap StreamTree.postOrder ++ ns := by
  induction ns generalizing ts with
  | nil => exact ⟨ts, hts, by simp [branchCount, leafCount], by simp⟩
  | cons n ns ih =>
    have hv := hpos n List.mem_cons_self
    have hpos' : ∀ m ∈ ns, 0 ≤ m.version := fun m hm => hpos m (List.mem_cons_of_mem _ hm)
    by_cases hn : n.height = 0
    · obtain ⟨ts', hts', hlen, heq⟩ := ih (.leaf n :: ts) (by simpa [StreamTree.Heights, hn] using hts)
        ((Supplied.leaf hv hn).mp hs) hpos'
      refine ⟨ts', hts', ?_, by simpa [StreamTree.postOrder] using heq⟩
      rw [leafCount_cons, branchCount_cons, if_pos hn, if_pos hn]
      simp only [List.length_cons] at hlen
      omega
    · obtain ⟨hd, hs'⟩ := (Supplied.branch hv hn).mp hs
      obtain ⟨r, l, ts, rfl⟩ := exists_cons_cons_of_length hd
      have hheights : ∀ t ∈ StreamTree.branch n l r :: ts, t.Heights := by
        have hl := hts l (by simp)
        have hr := hts r (by simp)
        intro t ht
        rcases List.mem_cons.mp ht with rfl | ht
        · exact ⟨hn, hl, hr⟩
        · exact hts t (by simp [ht])
      obtain ⟨ts', hts', hlen, heq⟩ := ih (.branch n l r :: ts) hheights (by simpa using hs') hpos'
      refine ⟨ts', hts', ?_, by simpa [StreamTree.postOrder] using heq⟩
      rw [leafCount_cons, branchCount_cons, if_neg hn, if_neg hn]
      simp only [List.length_cons] at hlen ⊢
      omega

/-- A stream without underflow is the post-order of at most one tree when at most one subtree is
left. -/
theorem isPostOrder_iff (hs : Supplied 0 ns) (hpos : ∀ m ∈ ns, 0 ≤ m.version) :
    IsPostOrder ns ↔ leafCount ns ≤ branchCount ns + 1 := by
  constructor
  · rintro (rfl | ⟨t, ht, rfl⟩)
    · simp [leafCount]
    · exact (StreamTree.leafCount_postOrder ht).le
  · intro hle
    obtain ⟨ts, hts, hlen, heq⟩ := exists_streamTrees [] (by simp) hs hpos
    simp only [List.length_nil, List.reverse_nil, List.flatMap_nil, List.nil_append] at hlen heq
    rcases ts with _ | ⟨t, _ | ⟨t', ts⟩⟩
    · exact .inl heq.symm
    · exact .inr ⟨t, hts t (by simp), by simpa using heq⟩
    · simp only [List.length_cons] at hlen
      omega

/-- With one subtree left, or nothing read, the files can be opened. -/
theorem Importer.Sized.finish_ok (hi : i.Sized depth leaves branches bytes) (hd : depth + branches = leaves)
    (h1 : depth ≤ 1) (h0 : depth = 0 → leaves = 0) {version : ℕ} (hversion : version < 2 ^ 64) (hleaves : leaves < 2 ^ 32)
    (hbytes : bytes < maxFileSize) : ∃ f s, i.finish version = .ok f ∧ openSnapshot f = .ok s := by
  unfold Importer.finish
  rw [hi.leavesStack]
  rcases depth with _ | _ | depth
  · exact ⟨_, _, rfl, openSnapshot_ok (c := 0) rfl hversion rfl rfl (by omega)⟩
  · have hcounter := hi.leafCounter
    rw [Nat.mod_eq_of_lt hleaves] at hcounter
    have hfit : i.writer.nodes.length < maxFileSize ∧ i.writer.leaves.length < maxFileSize ∧
        i.writer.kvs.length < maxFileSize := by
      rw [hi.nodesLength, hi.leavesLength, hi.kvsLength]
      refine ⟨?_, ?_, hbytes⟩
      · simp only [sizeNode, maxFileSize]
        omega
      · simp only [sizeLeaf, maxFileSize]
        omega
    have hflush : flushFiles version i.writer.leafCounter i.writer =
        .ok ⟨i.writer.nodes, i.writer.leaves, i.writer.kvs, metadataBytes version⟩ := by
      rw [flushFiles, if_neg (by omega), if_pos hfit]
    refine ⟨_, _, hflush, openSnapshot_ok (c := leaves) rfl hversion ?_ hi.leavesLength hleaves⟩
    rw [hi.nodesLength]
    congr 1
    omega
  · omega

theorem Importer.Sized.finish_error (hi : i.Sized depth leaves branches bytes) (h2 : 2 ≤ depth) (version : ℕ) :
    i.finish version = .error (.stackSize depth) := by
  unfold Importer.finish
  rw [hi.leavesStack]
  rcases depth with _ | _ | depth
  · omega
  · omega
  · rfl

/-- An import ends cleanly, in files that can be opened for the post-order of at most one tree
with no negative version and in an error for any other stream, exactly if every branch of the
stream, up to the first negative version, comes after two complete subtrees. -/
theorem doImport_clean_iff (hsha : ∀ b, (sha256 b).length = sizeHash) {version : ℕ} (hversion : version ≤ maxInt64)
    (hleaves : leafCount ns < 2 ^ 32) (hkvs : pairsSize ns < maxFileSize) :
    ((IsPostOrder ns ∧ (∀ n ∈ ns, 0 ≤ n.version) →
          ∃ f s, doImport sha256 version ns = some (.ok f) ∧ openSnapshot f = .ok s) ∧
        (¬ (IsPostOrder ns ∧ ∀ n ∈ ns, 0 ≤ n.version) → ∃ e, doImport sha256 version ns = some (.error e))) ↔
      Supplied 0 ns := by
  have hsized : newImporter.Sized 0 0 0 0 := ⟨rfl, rfl, rfl, rfl, rfl, rfl⟩
  have hnonneg : ¬ (version : ℤ) < 0 := by omega
  rw [doImport, if_neg hnonneg, Int.toNat_natCast]
  rcases hsized.addAll hsha ns with ⟨hs, h⟩ | ⟨hs, ⟨m, hm, hneg⟩, e, he⟩ | ⟨hs, hpos, hle, i, hi, hcount⟩
  · rw [h]
    refine iff_of_false (fun ⟨hok, herr⟩ => ?_) hs
    by_cases hp : IsPostOrder ns ∧ ∀ n ∈ ns, 0 ≤ n.version
    · obtain ⟨f, s, hf, -⟩ := hok hp
      cases hf
    · obtain ⟨e, he⟩ := herr hp
      cases he
  · rw [he]
    exact iff_of_true ⟨fun hp => absurd (hp.2 m hm) (not_le.mpr hneg), fun _ => ⟨e, rfl⟩⟩ hs
  · rw [hi]
    simp only [Nat.zero_add] at hle hcount
    refine iff_of_true ⟨fun hp => ?_, fun hp => ?_⟩ hs
    · have hone := (isPostOrder_iff hs hpos).mp hp.1
      have hempty : leafCount ns - branchCount ns = 0 → leafCount ns = 0 := by
        intro h0
        rcases hp.1 with rfl | ⟨t, ht, rfl⟩
        · rfl
        · have := StreamTree.leafCount_postOrder ht
          omega
      obtain ⟨f, s, hf, hopen⟩ := hcount.finish_ok (by omega) (by omega) hempty
        (hversion.trans_lt (by decide)) hleaves hkvs
      exact ⟨f, s, congrArg some hf, hopen⟩
    · have hmany : ¬ leafCount ns ≤ branchCount ns + 1 := fun h => hp ⟨(isPostOrder_iff hs hpos).mpr h, hpos⟩
      exact ⟨_, congrArg some (hcount.finish_error (by omega) version)⟩

end Streams

/-- Two leaves without a branch over them end in an error. -/
theorem doImport_two_leaves :
    ∃ e, doImport firstBytes 1 [⟨[1], some [2], 1, 0⟩, ⟨[2], some [3], 1, 0⟩] = some (.error e) := by
  have hs : Supplied 0 [⟨[1], some [2], 1, 0⟩, ⟨[2], some [3], 1, 0⟩] := by
    rw [Supplied.leaf (by decide) rfl, Supplied.leaf (by decide) rfl]
    intro before n after heq
    simp at heq
  have hversion : 1 ≤ maxInt64 := by decide
  have hclean := (doImport_clean_iff length_firstBytes hversion (by decide) (by decide)).mpr hs
  refine hclean.2 fun hp => ?_
  have hone := (isPostOrder_iff hs hp.2).mp hp.1
  exact absurd hone (by decide)

/-- A branch before any leaf, and after a single one, is an access out of range. -/
theorem doImport_branch_first :
    doImport firstBytes 1 [⟨[1], none, 1, 1⟩] = none ∧
      doImport firstBytes 1 [⟨[1], some [2], 1, 0⟩, ⟨[1], none, 1, 1⟩] = none :=
  ⟨rfl, rfl⟩

end IavlStore.Persist
