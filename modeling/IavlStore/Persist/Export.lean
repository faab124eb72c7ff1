import IavlStore.Persist.Mixed

/-! Exporting a tree. The nodes are listed in post-order, either by a traversal with a stack
or, when the tree is that of its snapshot, by one pass over the two arrays of the snapshot.
The pass follows no child: before a branch it lists leaves until as many subtrees are pending
as the record of the branch says. Both list the same nodes. -/

namespace IavlStore.Persist

open IavlStore.Base.Encoding IavlStore.Base.Slices IavlStore.Tree

/-- The value is nil for a branch. -/
structure ExportNode where
  key : Bytes
  value : Option Bytes
  version : ℤ
  height : ℤ
  deriving DecidableEq

/-- The nodes of a tree in post-order. -/
def exportNodes : Node Bytes Bytes → List ExportNode
  | .leaf v k x => [⟨k, some x, int64 v, 0⟩]
  | .branch h _ v k l r => exportNodes l ++ exportNodes r ++ [⟨k, none, int64 v, int8 h⟩]

/-! ### Traversal -/

namespace MixedNode

def isLeaf : MixedNode → Bool
  | leaf .. => true
  | branch .. => false
  | persisted _ n => n.isLeaf

def left : MixedNode → Option MixedNode
  | leaf .. => none
  | branch _ _ _ _ l _ => some l
  | persisted s n => (n.left s).map (persisted s)

def right : MixedNode → Option MixedNode
  | leaf .. => none
  | branch _ _ _ _ _ r => some r
  | persisted s n => (n.right s).map (persisted s)

/-- What the accessors return. -/
def exportNode : MixedNode → Option ExportNode
  | leaf v k x => some ⟨k, some x, int64 v, 0⟩
  | branch h _ v k _ _ => some ⟨k, none, int64 v, int8 h⟩
  | persisted s n => do some ⟨← n.key s, ← n.value s, int64 (← n.version s), int8 (← n.height s)⟩

end MixedNode

/-- Visit the nodes on a stack, each after its children; an entry is marked when its children
have been pushed. -/
def scanPostOrder {α : Type} (callback : MixedNode → Option α) : ℕ → List (MixedNode × Bool) → Option (List α)
  | 0, _ => none
  | _ + 1, [] => some []
  | fuel + 1, (node, expanded) :: stack =>
    if node.isLeaf || expanded then do
      let a ← callback node
      some (a :: (← scanPostOrder callback fuel stack))
    else do
      let right ← node.right
      let left ← node.left
      scanPostOrder callback fuel ((left, false) :: (right, false) :: (node, true) :: stack)

/-! ### The pass over a snapshot -/

namespace Snapshot

/-- List a number of leaves from an index on. -/
def exportLeaves (s : Snapshot) : ℕ → ℕ → Option (List ExportNode)
  | 0, _ => some []
  | n + 1, j => do
    let leaf ← s.leaf j
    let (key, value) ← s.keyValue leaf.keyOffset
    some (⟨key, some value, int64 leaf.version, 0⟩ :: (← exportLeaves s n (u32 (j + 1))))

/-- The branches from index `i` on, with the leaves before each. -/
def exportBranches (s : Snapshot) : ℕ → (i j pendingTrees : ℕ) → Option (List ExportNode)
  | 0, _, _, _ => some []
  | n + 1, i, j, pendingTrees => do
    let node ← s.node i
    -- add leaves until the branch has its two children
    let missing := node.preTrees + 2 - pendingTrees
    let leaves ← s.exportLeaves missing j
    let key ← s.leafKey node.keyLeaf
    let rest ← exportBranches s n (u32 (i + 1)) (u32 (j + missing)) (pendingTrees + missing - 1)
    some (leaves ++ ⟨key, none, int64 node.version, int8 node.height⟩ :: rest)

/-- A single leaf has no branch before which it would be listed. -/
def exportSnapshot (s : Snapshot) : Option (List ExportNode) :=
  if s.leavesLen = 0 then some []
  else if s.leavesLen = 1 then do
    let leaf : PersistedNode := ⟨true, 0⟩
    some [⟨← leaf.key s, ← leaf.value s, int64 (← leaf.version s), 0⟩]
  else s.exportBranches (u32 s.nodesLen) 0 0 0

end Snapshot

/-! ### Trees -/

/-- A tree over a snapshot it was loaded from, if any. -/
structure SnapshotTree where
  version : ℕ
  root : Option MixedNode
  snapshot : Option Snapshot

namespace SnapshotTree

def newEmptyTree (version : ℕ) : SnapshotTree := ⟨version, none, none⟩

def newFromSnapshot (s : Snapshot) : SnapshotTree := ⟨s.version, s.root.map (.persisted s), some s⟩

def saveVersion (t : SnapshotTree) : Option SnapshotTree :=
  if maxInt64 < t.version + 1 then none else some { t with version := t.version + 1 }

def setInitialVersion (initialVersion : ℕ) (t : SnapshotTree) : SnapshotTree :=
  if 0 < t.version then t else { t with version := initialVersion - 1 }

/-- The pass over the snapshot is taken when the tree has the version of the snapshot. -/
def exportTree (fuel : ℕ) (t : SnapshotTree) : Option (List ExportNode) :=
  match t.snapshot.filter fun s => t.version = s.version with
  | some s => s.exportSnapshot
  | none => scanPostOrder MixedNode.exportNode fuel (t.root.toList.map (·, false))

end SnapshotTree

/-! ### The traversal lists the post-order -/

variable {sha256 : Bytes → Bytes} {s : Snapshot} {t : Node Bytes Bytes}

/-- A leaf is visited once, a branch is pushed and visited. -/
def scanSteps : Node Bytes Bytes → ℕ
  | .leaf .. => 1
  | .branch _ _ _ _ l r => scanSteps l + scanSteps r + 2

theorem Reads.leaf_view {x : MixedNode} {v : ℕ} {k value : Bytes} (hsha : ∀ b, (sha256 b).length = sizeHash)
    (h : Reads sha256 x (.leaf v k value)) :
    x.isLeaf = true ∧ x.exportNode = some ⟨k, some value, int64 v, 0⟩ := by
  cases h with
  | leaf => exact ⟨rfl, rfl⟩
  | persisted part =>
    obtain ⟨v', B, L, off, rfl, hw⟩ := part.written hsha
    obtain ⟨hleaf, hf⟩ := hw.shows
    have hzero : int8 0 = 0 := rfl
    exact ⟨hleaf, by simp [MixedNode.exportNode, hf.key, hf.value, hf.version, hf.height, Node.key, Node.version, hzero]⟩

theorem Reads.branch_view {x : MixedNode} {h sz v : ℕ} {k : Bytes} {tl tr : Node Bytes Bytes}
    (hsha : ∀ b, (sha256 b).length = sizeHash) (hx : Reads sha256 x (.branch h sz v k tl tr)) :
    x.isLeaf = false ∧ x.exportNode = some ⟨k, none, int64 v, int8 h⟩ ∧
      (∃ l, x.left = some l ∧ Reads sha256 l tl) ∧ ∃ r, x.right = some r ∧ Reads sha256 r tr := by
  cases hx with
  | branch left right => exact ⟨rfl, rfl, ⟨_, rfl, left⟩, _, rfl, right⟩
  | @persisted s n _ part =>
    obtain ⟨v', B, L, off, hn, hw⟩ := part.written hsha
    have hshow := hw.shows
    rw [← hn] at hshow
    obtain ⟨hleaf, hf, ⟨l, hl, -⟩, r, hr, -⟩ := hshow
    refine ⟨by simpa [MixedNode.isLeaf] using hleaf, ?_, ⟨.persisted s l, ?_, .persisted (part.left hl)⟩, .persisted s r, ?_,
      .persisted (part.right hr)⟩
    · simp [MixedNode.exportNode, hf.key, hf.value, hf.version, hf.height, Node.key, Node.version]
    · simp [MixedNode.left, hl]
    · simp [MixedNode.right, hr]

theorem scanPostOrder_reads (hsha : ∀ b, (sha256 b).length = sizeHash) {x : MixedNode} (h : Reads sha256 x t)
    {fuel : ℕ} {stack : List (MixedNode × Bool)} {rest : List ExportNode}
    (hrest : scanPostOrder MixedNode.exportNode fuel stack = some rest) :
    scanPostOrder MixedNode.exportNode (fuel + scanSteps t) ((x, false) :: stack) = some (exportNodes t ++ rest) := by
  induction t generalizing x fuel stack rest with
  | leaf v k value =>
    obtain ⟨hleaf, hnode⟩ := h.leaf_view hsha
    simp [scanSteps, scanPostOrder, hleaf, hnode, hrest, exportNodes]
  | branch ht sz v k tl tr ihl ihr =>
    obtain ⟨hleaf, hnode, ⟨l, hl, hreadl⟩, r, hr, hreadr⟩ := h.branch_view hsha
    have hself : scanPostOrder MixedNode.exportNode (fuel + 1) ((x, true) :: stack) =
        some (⟨k, none, int64 v, int8 ht⟩ :: rest) := by
      simp [scanPostOrder, hnode, hrest]
    have hboth := ihl hreadl (ihr hreadr hself)
    have hfuel : fuel + scanSteps (.branch ht sz v k tl tr) = fuel + 1 + scanSteps tr + scanSteps tl + 1 := by
      rw [scanSteps]
      omega
    rw [hfuel, scanPostOrder]
    simp only [hleaf, Bool.or_self, Bool.false_eq_true, if_false, hr, hl, Option.bind_eq_bind, Option.bind_some, hboth,
      exportNodes, List.append_assoc, List.singleton_append]

/-! ### The pass lists the post-order -/

namespace Snapshot

theorem exportLeaves_append {a b j : ℕ} {xs ys : List ExportNode} (hj : j + a < 2 ^ 32)
    (ha : s.exportLeaves a j = some xs) (hb : s.exportLeaves b (j + a) = some ys) :
    s.exportLeaves (a + b) j = some (xs ++ ys) := by
  induction a generalizing j xs with
  | zero =>
    cases ha
    rw [Nat.zero_add]
    exact hb
  | succ a ih =>
    have hu : u32 ((j : ℤ) + 1) = j + 1 := by simp only [u32]; omega
    rw [Nat.add_right_comm, exportLeaves]
    rw [exportLeaves] at ha
    simp only [Option.bind_eq_bind, Option.bind_eq_some_iff, hu] at ha ⊢
    obtain ⟨leaf, hleaf, p, hp, zs, hzs, hxs⟩ := ha
    cases hxs
    refine ⟨leaf, hleaf, p, hp, zs ++ ys, ih (by omega) hzs ?_, rfl⟩
    rwa [Nat.add_assoc, Nat.add_comm 1 a]

end Snapshot

section Pass

variable {v' B L off : ℕ}

theorem Written.exportLeaves_leaf {v : ℕ} {k x : Bytes} (hw : Written sha256 s v' B L off (.leaf v k x)) :
    s.exportLeaves 1 L = some [⟨k, some x, int64 v, 0⟩] := by
  have hlen := hw.fits (k, x) (by simp [Node.toList])
  have hkv := hw.placed.keyValue hw.kvs_lt hlen.1 hlen.2
  have hoff := hw.placed.kvs.le
  have hs := hw.kvs_lt
  obtain ⟨fv, -, fo, -⟩ := leafLayout_fields (v := v) (o := off) (hw.inv.version_le.trans_lt hw.version_lt)
    hlen.1 (by omega) (hashNode_length hw.length_hash (.leaf v k x))
  simp [Snapshot.exportLeaves, hw.placed.leaf, fo, hkv, fv]

/-- Before the record of a branch all leaves below it are listed. -/
theorem Written.exportBranches_last {h sz v : ℕ} {k : Bytes} {l r : Node Bytes Bytes}
    (hw : Written sha256 s v' B L off (.branch h sz v k l r)) {j n : ℕ} {leaves rest : List ExportNode}
    (hB : B + sz - 2 ≤ j) (hj : j ≤ L + sz) (hleaves : s.exportLeaves (L + sz - j) j = some leaves)
    (hrest : s.exportBranches n (B + sz - 1) (L + sz) (L + sz - (B + sz - 1)) = some rest) :
    s.exportBranches (n + 1) (B + sz - 2) j (j - (B + sz - 2)) =
      some (leaves ++ ⟨k, none, int64 v, int8 h⟩ :: rest) := by
  obtain ⟨d, hd, fh, fp, fv, -, fk, -⟩ := hw.node
  have hkey := hw.right.leafKey_minKey
  have hBL := hw.branches_le
  have hL := hw.leaves_lt
  have hsz := hw.two_le_size
  rw [Node.size_branch] at hL
  have hmissing : L - B + 2 - (j - (B + sz - 2)) = L + sz - j := by omega
  have hi : u32 (((B + sz - 2 : ℕ) : ℤ) + 1) = B + sz - 1 := by simp only [u32]; omega
  have hj' : u32 ((j : ℤ) + (L + sz - j : ℕ)) = L + sz := by simp only [u32]; omega
  have hpending : j - (B + sz - 2) + (L + sz - j) - 1 = L + sz - (B + sz - 1) := by omega
  have hk : k = r.minKey := hw.inv.ordered.2.1
  simp only [Snapshot.exportBranches, hd, fp, fk, fv, fh, hmissing, hleaves, hkey, hi, hj', hpending, hrest, hk,
    Option.bind_eq_bind, Option.bind_some]

/-- Over the records of a subtree the pass lists the leaves left over from before and the nodes
of the subtree, in post-order, except that a single leaf is left over again. -/
theorem Written.exportBranches_eq (hw : Written sha256 s v' B L off t) {j : ℕ} {leaves : List ExportNode}
    (hB : B ≤ j) (hj : j ≤ L) (hleaves : s.exportLeaves (L - j) j = some leaves) :
    ∃ j' listed late, B + t.size - 1 ≤ j' ∧ j' ≤ L + t.size ∧ s.exportLeaves (L + t.size - j') j' = some late ∧
      listed ++ late = leaves ++ exportNodes t ∧ (t.size ≠ 1 → late = []) ∧
      ∀ n rest, s.exportBranches n (B + t.size - 1) j' (j' - (B + t.size - 1)) = some rest →
        s.exportBranches (n + (t.size - 1)) B j (j - B) = some (listed ++ rest) := by
  induction t generalizing B L off j leaves with
  | leaf v k x =>
    have hL := hw.leaves_lt
    have hlate : s.exportLeaves (L - j + 1) j = some (leaves ++ exportNodes (.leaf v k x)) := by
      refine Snapshot.exportLeaves_append ?_ hleaves ?_
      · simp only [Node.size] at hL
        omega
      · rw [Nat.add_sub_cancel' hj]
        exact hw.exportLeaves_leaf
    refine ⟨j, [], leaves ++ exportNodes (.leaf v k x), ?_, ?_, ?_, rfl, fun h => absurd rfl h, ?_⟩
    · simpa [Node.size] using hB
    · simp only [Node.size]
      omega
    · rw [← hlate]
      congr 1
      simp only [Node.size]
      omega
    · intro n rest hrest
      simpa [Node.size] using hrest
  | branch h sz v k l r ihl ihr =>
    have hsz : sz = l.size + r.size := hw.inv.balanced.2.1
    have hlpos := hw.left.size_pos
    have hrpos := hw.right.size_pos
    obtain ⟨j₁, listed₁, late₁, hB₁, hj₁, hlate₁, heq₁, -, hpass₁⟩ := ihl hw.left hB hj hleaves
    obtain ⟨j₂, listed₂, late₂, hB₂, hj₂, hlate₂, heq₂, -, hpass₂⟩ := ihr hw.right (by omega) hj₁ hlate₁
    have hlast : B + (l.size - 1) + r.size - 1 = B + sz - 2 := by omega
    have hend : L + l.size + r.size = L + sz := by omega
    rw [hlast] at hB₂ hpass₂
    rw [hend] at hj₂ hlate₂
    have hmid : B + l.size - 1 = B + (l.size - 1) := by omega
    rw [hmid] at hpass₁
    refine ⟨L + sz, listed₁ ++ listed₂ ++ late₂ ++ [⟨k, none, int64 v, int8 h⟩], [], ?_, le_rfl, ?_, ?_, fun _ => rfl, ?_⟩
    · have := hw.branches_le
      simp only [Node.size_branch]
      omega
    · simp [Node.size_branch, Snapshot.exportLeaves]
    · rw [List.append_nil, List.append_assoc listed₁, heq₂, ← List.append_assoc listed₁, heq₁, exportNodes]
      simp only [List.append_assoc]
    · intro n rest hrest
      have hself := hpass₁ _ _ (hpass₂ _ _ (hw.exportBranches_last hB₂ hj₂ hlate₂ hrest))
      rw [Node.size_branch]
      have hcount : n + (sz - 1) = n + 1 + (r.size - 1) + (l.size - 1) := by omega
      rw [hcount, hself]
      simp only [List.append_assoc, List.singleton_append]

/-- The pass over the files of a tree lists the tree. -/
theorem Written.exportSnapshot_eq (hw : Written sha256 s v' 0 0 0 t) (hn : s.nodesLen + 1 = t.size)
    (hl : s.leavesLen = t.size) : s.exportSnapshot = some (exportNodes t) := by
  have hpos := hw.size_pos
  have hlt := hw.leaves_lt
  rw [Snapshot.exportSnapshot, hl, if_neg (by omega)]
  by_cases h1 : t.size = 1
  · rw [if_pos h1]
    cases t with
    | leaf v k x =>
      obtain ⟨-, hf⟩ := hw.shows_leaf
      simp [hf.key, hf.value, hf.version, exportNodes, Node.key, Node.version]
    | branch h sz v k l r => exact absurd h1 (by have := hw.two_le_size; rw [Node.size_branch]; omega)
  · obtain ⟨j, listed, late, -, -, -, heq, hlate, hpass⟩ := hw.exportBranches_eq le_rfl le_rfl rfl
    have hcount : u32 s.nodesLen = 0 + (t.size - 1) := by
      simp only [u32]
      omega
    rw [if_neg h1, hcount, hpass 0 [] rfl, List.append_nil, ← List.append_nil listed, ← hlate h1, heq]
    rfl

end Pass

/-! ### Exports of trees -/

variable (sha256) in
/-- The snapshot was written from this well-formed tree and opened. -/
def OpenedFrom (s : Snapshot) (t : Option (Node Bytes Bytes)) : Prop :=
  ∃ v version f, v < 2 ^ 64 ∧ version < 2 ^ 64 ∧ (∀ u ∈ t, u.Inv v ∧ Fits u ∧ u.toList.length < 2 ^ 32) ∧
    writeSnapshot version (t.map (Node.stored sha256)) = some f ∧ openSnapshot f = .ok s

/-- The post-order of a tree that may be empty. -/
def treeNodes (t : Option (Node Bytes Bytes)) : List ExportNode := t.elim [] exportNodes

theorem lengths_of_openSnapshot (hsha : ∀ b, (sha256 b).length = sizeHash) {version : ℕ} (hv : version < 2 ^ 64)
    (hb : t.Balanced) (ht : t.size < 2 ^ 32) (hopen : openSnapshot (filesOf version (t.stored sha256)) = .ok s) :
    s.nodesLen + 1 = t.size ∧ s.leavesLen = t.size := by
  have hc := count_stored sha256 hb
  have hpos := count_pos (t.stored sha256)
  have hnodes := length_flatten_of_forall (length_of_mem_nodesOf hsha t 0 0)
  have hleaves := length_flatten_of_forall (length_of_mem_leavesOf hsha t 0)
  rw [length_nodesOf, hc] at hnodes
  rw [length_leavesOf, hc] at hleaves
  rw [openSnapshot_ok (c := t.size) rfl hv hnodes hleaves ht] at hopen
  obtain rfl := Except.ok.inj hopen
  constructor
  · simp only [Snapshot.nodesLen, filesOf, hnodes]
    rw [Nat.mul_div_cancel _ (by decide)]
    omega
  · simp only [Snapshot.leavesLen, filesOf, hleaves]
    exact Nat.mul_div_cancel _ (by decide)

theorem OpenedFrom.exportSnapshot (hsha : ∀ b, (sha256 b).length = sizeHash) {t : Option (Node Bytes Bytes)}
    (h : OpenedFrom sha256 s t) :
    s.exportSnapshot = some (treeNodes t) ∧ Option.Rel (Reads sha256) (s.root.map (.persisted s)) t := by
  obtain ⟨v, version, f, hv, hversion, ht, hwrite, hopen⟩ := h
  rcases t with _ | t
  · obtain rfl : (⟨[], [], [], metadataBytes version⟩ : Files) = f := Option.some.inj hwrite
    rw [openSnapshot_ok (c := 0) rfl hversion rfl rfl (by omega)] at hopen
    obtain rfl := Except.ok.inj hopen
    exact ⟨by simp [Snapshot.exportSnapshot, Snapshot.leavesLen, treeNodes], .none⟩
  · obtain ⟨hi, hf, hlen⟩ := ht t rfl
    have hsize : t.size < 2 ^ 32 := by rwa [hi.balanced.size_eq]
    have hpart : ∀ n, s.root = some n → InSnapshot sha256 s n t :=
      fun n => .root hi hv hversion hf hlen hwrite hopen
    obtain ⟨s', hopen', -, hroot, hw⟩ := openSnapshot_of_write hv hversion hi hf hlen hsha hwrite
    obtain rfl : s' = s := Except.ok.inj (hopen'.symm.trans hopen)
    obtain ⟨-, rfl⟩ := (writeSnapshot_eq_some_iff version hi.balanced hlen hsha).mp hwrite
    obtain ⟨hn, hl⟩ := lengths_of_openSnapshot hsha hversion hi.balanced hsize hopen
    rw [hroot]
    exact ⟨hw.exportSnapshot_eq hn hl, .some (.persisted (hpart _ hroot))⟩

/-- With enough fuel the traversal lists the post-order. -/
theorem scanPostOrder_eq (hsha : ∀ b, (sha256 b).length = sizeHash) {root : Option MixedNode}
    {t : Option (Node Bytes Bytes)} (hr : Option.Rel (Reads sha256) root t) :
    ∃ enough, ∀ fuel, enough ≤ fuel →
      scanPostOrder MixedNode.exportNode fuel (root.toList.map (·, false)) = some (treeNodes t) := by
  cases hr with
  | none =>
    refine ⟨1, fun fuel hfuel => ?_⟩
    obtain ⟨fuel, rfl⟩ := Nat.exists_eq_add_of_le' hfuel
    rfl
  | @some x u hr =>
    refine ⟨scanSteps u + 1, fun fuel hfuel => ?_⟩
    obtain ⟨fuel, rfl⟩ := Nat.exists_eq_add_of_le' hfuel
    have hend : scanPostOrder MixedNode.exportNode (fuel + 1) [] = some [] := rfl
    have hscan := scanPostOrder_reads hsha hr hend
    rw [List.append_nil] at hscan
    rw [show fuel + (scanSteps u + 1) = fuel + 1 + scanSteps u by omega]
    exact hscan

variable (sha256) in
/-- The trees that loads, changes and saved versions lead to, with what they hold and whether
there are changes that no version was saved for. A change may lead to any other root. -/
inductive Holds : SnapshotTree → Option (Node Bytes Bytes) → Bool → Prop where
  | newEmptyTree (version : ℕ) : Holds (.newEmptyTree version) none false
  | newFromSnapshot {s : Snapshot} {t : Option (Node Bytes Bytes)} (opened : OpenedFrom sha256 s t) :
    Holds (.newFromSnapshot s) t false
  | change {T : SnapshotTree} {t t' : Option (Node Bytes Bytes)} {changed : Bool} {root : Option MixedNode}
    (before : Holds T t changed) (reads : Option.Rel (Reads sha256) root t') : Holds { T with root := root } t' true
  | saveVersion {T T' : SnapshotTree} {t : Option (Node Bytes Bytes)} {changed : Bool} (before : Holds T t changed)
    (save : T.saveVersion = some T') : Holds T' t false
  | setInitialVersion {T : SnapshotTree} {t : Option (Node Bytes Bytes)} {changed : Bool} (initialVersion : ℕ)
    (before : Holds T t changed) : Holds (T.setInitialVersion initialVersion) t changed

/-- The root stands for what the tree holds, and at the version of the snapshot a tree without
changes is still that of the snapshot. -/
theorem Holds.current (hsha : ∀ b, (sha256 b).length = sizeHash) {T : SnapshotTree} {t : Option (Node Bytes Bytes)}
    {changed : Bool} (h : Holds sha256 T t changed) :
    Option.Rel (Reads sha256) T.root t ∧ ∀ s ∈ T.snapshot, s.version ≤ T.version ∧
      (T.version = s.version → changed = false → OpenedFrom sha256 s t) := by
  induction h with
  | newEmptyTree version => exact ⟨.none, fun s hs => by cases hs⟩
  | @newFromSnapshot s t opened =>
    refine ⟨(opened.exportSnapshot hsha).2, fun s' hs => ?_⟩
    cases hs
    exact ⟨le_rfl, fun _ _ => opened⟩
  | change before reads ih => exact ⟨reads, fun s hs => ⟨(ih.2 s hs).1, fun _ hc => by cases hc⟩⟩
  | @saveVersion T T' t changed before save ih =>
    unfold SnapshotTree.saveVersion at save
    split_ifs at save
    obtain rfl := Option.some.inj save
    refine ⟨ih.1, fun s hs => ?_⟩
    have hle := (ih.2 s hs).1
    exact ⟨Nat.le_succ_of_le hle, fun heq _ => absurd heq (by simp only; omega)⟩
  | @setInitialVersion T t changed initialVersion before ih =>
    unfold SnapshotTree.setInitialVersion
    split_ifs with hpos
    · exact ih
    · refine ⟨ih.1, fun s hs => ?_⟩
      obtain ⟨hle, hsame⟩ := ih.2 s hs
      exact ⟨by simp only; omega, fun _ hc => hsame (by omega) hc⟩

/-- The leaves among the nodes of a tree. -/
theorem leaves_exportNodes (hb : t.Balanced) (ht : t.height < 128) :
    ((exportNodes t).filter fun e => e.height = 0).map (fun e => (e.key, e.value)) =
      t.toList.map fun p => (p.1, some p.2) := by
  induction t with
  | leaf v k x => rfl
  | branch h sz v k l r ihl ihr =>
    obtain ⟨hh, -, -, -, hbl, hbr⟩ := hb
    simp only [Node.height_branch] at ht
    have hne : int8 h ≠ 0 := by
      rw [int8_of_lt ht]
      omega
    simp only [exportNodes, List.filter_append, List.map_append, ihl hbl (by omega), ihr hbr (by omega), Node.toList]
    simp [hne]

/-- Whichever way a tree without changes since its last version is exported, its nodes come in
post-order. The pass over a snapshot lists what the traversal of it lists, and every leaf once. -/
theorem exportTree_eq_postOrder (hsha : ∀ b, (sha256 b).length = sizeHash) {T : SnapshotTree}
    {t : Option (Node Bytes Bytes)} (h : Holds sha256 T t false) :
    (∃ enough, ∀ fuel, enough ≤ fuel → T.exportTree fuel = some (treeNodes t)) ∧
      ∀ s u, OpenedFrom sha256 s u → s.exportSnapshot = some (treeNodes u) ∧
        (∃ enough, ∀ fuel, enough ≤ fuel →
          scanPostOrder MixedNode.exportNode fuel ((s.root.map (.persisted s)).toList.map (·, false)) =
            s.exportSnapshot) ∧
        ((treeNodes u).filter fun e => e.height = 0).map (fun e => (e.key, e.value)) =
          (treePairs u).map fun p => (p.1, some p.2) := by
  refine ⟨?_, fun s u hs => ?_⟩
  · obtain ⟨hreads, hsnap⟩ := h.current hsha
    obtain ⟨enough, hscan⟩ := scanPostOrder_eq hsha hreads
    refine ⟨enough, fun fuel hfuel => ?_⟩
    unfold SnapshotTree.exportTree
    rcases hf : T.snapshot.filter (fun s => T.version = s.version) with _ | s
    · simp only [hf]
      exact hscan fuel hfuel
    · obtain ⟨hs, hversion⟩ := Option.filter_eq_some_iff.mp hf
      simp only [hf]
      exact (((hsnap s hs).2 (of_decide_eq_true hversion) rfl).exportSnapshot hsha).1
  · obtain ⟨hpass, hreads⟩ := hs.exportSnapshot hsha
    refine ⟨hpass, ?_, ?_⟩
    · rw [hpass]
      exact scanPostOrder_eq hsha hreads
    · obtain ⟨v, version, f, -, -, ht, -, -⟩ := hs
      rcases u with _ | u
      · rfl
      · obtain ⟨hi, -, hlen⟩ := ht u rfl
        rw [← hi.balanced.size_eq] at hlen
        exact leaves_exportNodes hi.balanced ((height_lt_of_size_lt hi.balanced hlen).trans (by decide))

theorem exists_openedFrom (hsha : ∀ b, (sha256 b).length = sizeHash) {v : ℕ} (hv : v < 2 ^ 64) (hi : t.Inv v)
    (hf : Fits t) (ht : t.toList.length < 2 ^ 32) (hsize : kvsSize t < maxFileSize) :
    ∃ s, OpenedFrom sha256 s (some t) ∧ s.version = v := by
  have hwrite := (writeSnapshot_eq_some_iff v hi.balanced ht hsha).mpr ⟨hsize, rfl⟩
  obtain ⟨s, hopen, hversion, -, -⟩ := openSnapshot_of_write hv hv hi hf ht hsha hwrite
  refine ⟨s, ⟨v, v, _, hv, hv, ?_, hwrite, hopen⟩, hversion⟩
  rintro u ⟨⟩
  exact ⟨hi, hf, ht⟩

/-- The pass at the version of the snapshot and the traversal after it. -/
theorem exportTree_after_saveVersion :
    let sha256 : Bytes → Bytes := fun _ => List.replicate 32 0
    ∃ s T fuel, OpenedFrom sha256 s (some threeLeaves) ∧ (SnapshotTree.newFromSnapshot s).saveVersion = some T ∧
      (SnapshotTree.newFromSnapshot s).exportTree fuel = some (exportNodes threeLeaves) ∧
      T.exportTree fuel = some (exportNodes threeLeaves) := by
  intro sha256
  have hsha : ∀ b, (sha256 b).length = sizeHash := fun _ => rfl
  obtain ⟨s, hs, hversion⟩ := exists_openedFrom hsha (by decide) threeLeaves_inv
    (by simp [Fits, threeLeaves, Node.toList]) (by decide) (by decide)
  have hsave : (SnapshotTree.newFromSnapshot s).saveVersion =
      some ⟨s.version + 1, s.root.map (.persisted s), some s⟩ := by
    rw [SnapshotTree.saveVersion, if_neg]
    · rfl
    · simp [SnapshotTree.newFromSnapshot, hversion, maxInt64]
  obtain ⟨enough₁, h₁⟩ := (exportTree_eq_postOrder hsha (.newFromSnapshot hs)).1
  obtain ⟨enough₂, h₂⟩ := (exportTree_eq_postOrder hsha (.saveVersion (.newFromSnapshot hs) hsave)).1
  exact ⟨s, _, max enough₁ enough₂, hs, hsave, h₁ _ (le_max_left _ _), h₂ _ (le_max_right _ _)⟩

end IavlStore.Persist
