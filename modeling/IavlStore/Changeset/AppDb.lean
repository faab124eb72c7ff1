import IavlStore.Changeset.RoundTrip
import IavlStore.Persist.Export

/-! Nodes of a snapshot as records of the application database. A record holds the fields of a node and the
value of a leaf or the hashes of the children of a branch, and has the hash of the node as its key. From
the record of the root the tree is read back by following the hashes. -/

namespace IavlStore.Changeset

open IavlStore.Base.Encoding IavlStore.Base.Parsers IavlStore.Persist IavlStore.Tree

/-! ### Encoding -/

def encodeNode (s : Snapshot) (node : PersistedNode) : Option Bytes := do
  let height ← node.height s
  let size ← node.size s
  let version ← node.version s
  let key ← node.key s
  let header := putVarint height ++ (putVarint size ++ (putVarint (int64 version) ++ encodeBytes key))
  if height = 0 then do
    let value ← node.value s
    some (header ++ encodeBytes (value.getD []))
  else do
    let left ← (← node.left s).hash s
    let right ← (← node.right s).hash s
    some (header ++ (encodeBytes left ++ encodeBytes right))

def encodeSorterNode (s : Snapshot) (node : PersistedNode) : Option Bytes := do
  let hash ← node.hash s
  let bz ← encodeNode s node
  some (hash ++ bz)

/-- The leaves, then the branches. -/
def scanNodes {A : Type} (s : Snapshot) (callback : PersistedNode → Option A) : Option (List A) := do
  let leaves ← (List.range s.leavesLen).mapM fun i : ℕ => callback ⟨true, u32 i⟩
  let branches ← (List.range s.nodesLen).mapM fun i : ℕ => callback ⟨false, u32 i⟩
  some (leaves ++ branches)

/-! ### Decoding -/

/-- The fields of a record. -/
inductive NodeRecord where
  | leaf (version : ℕ) (key value : Bytes)
  | branch (height size version : ℕ) (key left right : Bytes)

def decodeNode : Parser UInt8 ReadError NodeRecord := do
  let height ← readVarint
  let size ← readVarint
  let version ← readVarint
  let key ← readBytes
  if height = 0 then do
    let value ← readBytes
    pure (.leaf (uint64 version) key value)
  else do
    let left ← readBytes
    let right ← readBytes
    pure (.branch height.toNat size.toNat (uint64 version) key left right)

/-- The tree under a hash, as far as records are found, within a number of levels. -/
def loadNode (get : Bytes → Option Bytes) : ℕ → Bytes → Option (Node Bytes Bytes)
  | 0, _ => none
  | levels + 1, hash =>
    match (get hash).map decodeNode.run with
    | some (.ok (.leaf version key value, [])) => some (.leaf version key value)
    | some (.ok (.branch height size version key left right, [])) => do
      let l ← loadNode get levels left
      let r ← loadNode get levels right
      some (.branch height size version key l r)
    | _ => none

/-! ### What is encoded -/

variable {sha256 : Bytes → Bytes} {s : Snapshot} {t : Node Bytes Bytes} {n B L off : ℕ}

section
variable (sha256)

/-- The record of a node. -/
def nodeBytes (t : Node Bytes Bytes) : Bytes :=
  putVarint t.height ++ (putVarint t.size ++ (putVarint (int64 t.version) ++ encodeBytes t.key)) ++
    match t with
    | .leaf _ _ x => encodeBytes x
    | .branch _ _ _ _ l r => encodeBytes (l.hashNode sha256) ++ encodeBytes (r.hashNode sha256)

/-- The item of a node. -/
def nodeItem (t : Node Bytes Bytes) : Bytes := t.hashNode sha256 ++ nodeBytes sha256 t

end

def leafNodes : Node Bytes Bytes → List (Node Bytes Bytes)
  | .leaf v k x => [.leaf v k x]
  | .branch _ _ _ _ l r => leafNodes l ++ leafNodes r

def branchNodes : Node Bytes Bytes → List (Node Bytes Bytes)
  | .leaf .. => []
  | .branch h sz v k l r => branchNodes l ++ branchNodes r ++ [.branch h sz v k l r]

/-- The leaves and branches of a tree. -/
def subtrees (t : Node Bytes Bytes) : List (Node Bytes Bytes) := leafNodes t ++ branchNodes t

theorem encodeSorterNode_of_shows {node : PersistedNode} (hb : t.Balanced) (h : Shows sha256 s node t) :
    encodeSorterNode s node = some (nodeItem sha256 t) := by
  cases t with
  | leaf v k x =>
    obtain ⟨-, f⟩ := h
    simp [encodeSorterNode, encodeNode, f.hash, f.height, f.size, f.version, f.key, f.value, nodeItem, nodeBytes]
  | branch ht sz v k l r =>
    obtain ⟨-, f, ⟨left, hleft, hl⟩, right, hright, hr⟩ := h
    have hpos : ht ≠ 0 := by
      have := hb.1
      omega
    have hlhash : left.hash s = some (l.hashNode sha256) := by
      cases l with
      | leaf => exact hl.2.hash
      | branch => exact hl.2.1.hash
    have hrhash : right.hash s = some (r.hashNode sha256) := by
      cases r with
      | leaf => exact hr.2.hash
      | branch => exact hr.2.1.hash
    simp [encodeSorterNode, encodeNode, f.hash, f.height, f.size, f.version, f.key, hpos, hleft, hright, hlhash,
      hrhash, nodeItem, nodeBytes]

theorem mapM_append_some {A B : Type} {f : A → Option B} {l l' : List A} {m m' : List B} (h : l.mapM f = some m)
    (h' : l'.mapM f = some m') : (l ++ l').mapM f = some (m ++ m') := by
  rw [List.mapM_append, h, h']
  rfl

theorem u32_of_lt {i : ℕ} (h : i < 2 ^ 32) : u32 i = i := by
  unfold u32
  omega

/-- The leaves of a subtree are numbered from `L` on. -/
theorem leaves_encodeSorterNode (w : Written sha256 s n B L off t) :
    (List.range' L t.size).mapM (fun i : ℕ => encodeSorterNode s ⟨true, u32 i⟩) =
      some ((leafNodes t).map (nodeItem sha256)) := by
  induction t generalizing B L off with
  | leaf v k x =>
    have hlt := w.leaves_lt
    have hitem := encodeSorterNode_of_shows w.inv.balanced w.shows_leaf
    simp only [Node.size] at hlt ⊢
    rw [List.range'_one, List.mapM_cons, u32_of_lt (by omega), hitem]
    rfl
  | branch h sz v k l r ihl ihr =>
    rw [Node.size_branch, w.inv.balanced.2.1, ← List.range'_append_1, leafNodes, List.map_append]
    exact mapM_append_some (ihl w.left) (ihr w.right)

/-- The branches are numbered from `B` on, each after those of its children. -/
theorem branches_encodeSorterNode (w : Written sha256 s n B L off t) :
    (List.range' B (t.size - 1)).mapM (fun i : ℕ => encodeSorterNode s ⟨false, u32 i⟩) =
      some ((branchNodes t).map (nodeItem sha256)) := by
  induction t generalizing B L off with
  | leaf v k x => rfl
  | branch h sz v k l r ihl ihr =>
    have hl := w.left.size_pos
    have hr := w.right.size_pos
    have hsz := w.inv.balanced.2.1
    have hlt := w.leaves_lt
    have hle := w.branches_le
    have hroot := w.shows
    rw [w.rootAt_eq, Node.size_branch, if_neg (by omega)] at hroot
    have hitem := encodeSorterNode_of_shows w.inv.balanced hroot
    have hsplit : List.range' B (sz - 1) =
        List.range' B (l.size - 1) ++ List.range' (B + (l.size - 1)) (r.size - 1) ++ [B + sz - 2] := by
      rw [List.range'_append_1, show sz - 1 = l.size - 1 + (r.size - 1) + 1 by omega, List.range'_1_concat]
      congr 2
      omega
    rw [Node.size_branch] at hlt ⊢
    rw [hsplit, branchNodes, List.map_append, List.map_append]
    refine mapM_append_some (mapM_append_some (ihl w.left) (ihr w.right)) ?_
    rw [List.mapM_cons, u32_of_lt (by omega), hitem]
    rfl

/-- The subtrees of a tree that may be empty. -/
def treeSubtrees (t : Option (Node Bytes Bytes)) : List (Node Bytes Bytes) := t.elim [] subtrees

/-- The hash of the root, empty for an empty tree. -/
def snapshotRootHash (s : Snapshot) : Option Bytes :=
  match s.root with
  | none => some []
  | some root => root.hash s

/-- A scan of the snapshot gives the items of all nodes. -/
theorem scanNodes_encodeSorterNode (hsha : ∀ b, (sha256 b).length = sizeHash) {t : Option (Node Bytes Bytes)}
    (h : OpenedFrom sha256 s t) :
    scanNodes s (encodeSorterNode s) = some ((treeSubtrees t).map (nodeItem sha256)) ∧
      snapshotRootHash s = some (t.elim [] (Node.hashNode sha256)) := by
  obtain ⟨v, version, f, hv, hversion, ht, hwrite, hopen⟩ := h
  rcases t with _ | t
  · obtain rfl : (⟨[], [], [], metadataBytes version⟩ : Files) = f := Option.some.inj hwrite
    rw [openSnapshot_ok (c := 0) rfl hversion rfl rfl (by omega)] at hopen
    obtain rfl := Except.ok.inj hopen
    exact ⟨by simp [scanNodes, Snapshot.leavesLen, Snapshot.nodesLen, treeSubtrees], rfl⟩
  · obtain ⟨hi, hf, hlen⟩ := ht t rfl
    have hsize : t.size < 2 ^ 32 := by rwa [hi.balanced.size_eq]
    obtain ⟨s', hopen', -, hroot, w⟩ := openSnapshot_of_write hv hversion hi hf hlen hsha hwrite
    obtain rfl : s' = s := Except.ok.inj (hopen'.symm.trans hopen)
    obtain ⟨-, rfl⟩ := (writeSnapshot_eq_some_iff version hi.balanced hlen hsha).mp hwrite
    obtain ⟨hn, hl⟩ := lengths_of_openSnapshot hsha hversion hi.balanced hsize hopen
    have hleaves := leaves_encodeSorterNode w
    have hbranches := branches_encodeSorterNode w
    rw [← hl, ← List.range_eq_range'] at hleaves
    rw [← hn, Nat.add_sub_cancel, ← List.range_eq_range'] at hbranches
    constructor
    · simp only [scanNodes, hleaves, hbranches, Option.bind_eq_bind, Option.bind_some, treeSubtrees, Option.elim_some,
        subtrees, List.map_append]
    · rw [snapshotRootHash, hroot]
      have hshows := w.shows
      cases t with
      | leaf => exact hshows.2.hash
      | branch => exact hshows.2.1.hash

/-! ### Reading back -/

/-- What a record holds. -/
def nodeRecord (sha256 : Bytes → Bytes) : Node Bytes Bytes → NodeRecord
  | .leaf v k x => .leaf v k x
  | .branch h sz v k l r => .branch h sz v k (l.hashNode sha256) (r.hashNode sha256)

theorem exact_encodeBytes {bz : Bytes} (h : (encodeBytes bz).length < 2 ^ 32) : Exact readBytes bz (encodeBytes bz) := by
  rw [encodeBytes, List.length_append] at h
  exact exact_readBytes (by omega)

theorem exact_decodeNode (hb : t.Balanced) (hsize : t.size < 2 ^ 32) (hv : t.version < 2 ^ 64)
    (h : (nodeBytes sha256 t).length < 2 ^ 32) : Exact decodeNode (nodeRecord sha256 t) (nodeBytes sha256 t) := by
  have hheight : t.height < 64 := height_lt_of_size_lt hb hsize
  have hheight' := exact_readVarint (x := t.height) (by omega)
  have hsize' := exact_readVarint (x := t.size) (by omega)
  have hversion := exact_readVarint (int64_range t.version)
  have hvalue := uint64_int64 hv
  simp only [nodeBytes, List.length_append] at h
  have hkey : Exact readBytes t.key (encodeBytes t.key) := exact_encodeBytes (by omega)
  cases t with
  | leaf v k x =>
    dsimp only at h
    have hx : Exact readBytes x (encodeBytes x) := exact_encodeBytes (by omega)
    simp only [nodeBytes, List.append_assoc]
    refine hheight'.bind (hsize'.bind (hversion.bind (hkey.bind ?_)))
    refine hx.bind_pure (congrArg Pure.pure ?_)
    rw [hvalue]
    rfl
  | branch ht sz v k l r =>
    have hpos : ht ≠ 0 := by
      have := hb.1
      omega
    simp only [List.length_append] at h
    have hl : Exact readBytes (l.hashNode sha256) (encodeBytes (l.hashNode sha256)) := exact_encodeBytes (by omega)
    have hr : Exact readBytes (r.hashNode sha256) (encodeBytes (r.hashNode sha256)) := exact_encodeBytes (by omega)
    simp only [nodeBytes, List.append_assoc]
    refine hheight'.bind (hsize'.bind (hversion.bind (hkey.bind ?_)))
    rw [if_neg (by simpa using hpos)]
    refine hl.bind (hr.bind_pure (congrArg Pure.pure ?_))
    rw [hvalue]
    rfl

theorem mem_subtrees_left {h sz v : ℕ} {k : Bytes} {l r u : Node Bytes Bytes} (hu : u ∈ subtrees l) :
    u ∈ subtrees (.branch h sz v k l r) := by
  simp only [subtrees, leafNodes, branchNodes, List.mem_append] at hu ⊢
  tauto

theorem mem_subtrees_right {h sz v : ℕ} {k : Bytes} {l r u : Node Bytes Bytes} (hu : u ∈ subtrees r) :
    u ∈ subtrees (.branch h sz v k l r) := by
  simp only [subtrees, leafNodes, branchNodes, List.mem_append] at hu ⊢
  tauto

theorem self_mem_subtrees (t : Node Bytes Bytes) : t ∈ subtrees t := by
  cases t <;> simp [subtrees, leafNodes, branchNodes]

/-- Where the records of all its nodes are found, a tree is read back from its hash. -/
theorem loadNode_hashNode {get : Bytes → Option Bytes} (hi : t.Inv n) (hn : n < 2 ^ 64) (hsize : t.size < 2 ^ 32)
    (hbytes : ∀ u ∈ subtrees t, (nodeBytes sha256 u).length < 2 ^ 32)
    (hget : ∀ u ∈ subtrees t, get (u.hashNode sha256) = some (nodeBytes sha256 u)) {levels : ℕ}
    (hlevels : t.height < levels) : loadNode get levels (t.hashNode sha256) = some t := by
  induction t generalizing levels with
  | leaf v k x =>
    obtain ⟨levels, rfl⟩ : ∃ m, levels = m + 1 := ⟨levels - 1, by omega⟩
    have hmem := self_mem_subtrees (.leaf v k x)
    have hread := (exact_decodeNode hi.balanced hsize (hi.version_le.trans_lt hn) (hbytes _ hmem)).reads []
    rw [List.append_nil] at hread
    simp only [loadNode, hget _ hmem, Option.map_some, StateT.run, hread, nodeRecord]
  | branch h sz v k l r ihl ihr =>
    obtain ⟨levels, rfl⟩ : ∃ m, levels = m + 1 := ⟨levels - 1, by omega⟩
    have hmem := self_mem_subtrees (.branch h sz v k l r)
    have hread := (exact_decodeNode hi.balanced hsize (hi.version_le.trans_lt hn) (hbytes _ hmem)).reads []
    rw [List.append_nil] at hread
    obtain ⟨hh, hs, -⟩ := hi.balanced
    rw [Node.height_branch] at hlevels
    rw [Node.size_branch] at hsize
    have hl : loadNode get levels (l.hashNode sha256) = some l := ihl hi.left (by omega)
      (fun u hu => hbytes u (mem_subtrees_left hu)) (fun u hu => hget u (mem_subtrees_left hu)) (by omega)
    have hr : loadNode get levels (r.hashNode sha256) = some r := ihr hi.right (by omega)
      (fun u hu => hbytes u (mem_subtrees_right hu)) (fun u hu => hget u (mem_subtrees_right hu)) (by omega)
    simp only [loadNode, hget _ hmem, Option.map_some, StateT.run, hread, nodeRecord, hl, hr, Option.bind_eq_bind,
      Option.bind_some]

end IavlStore.Changeset
