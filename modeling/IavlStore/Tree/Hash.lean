import IavlStore.Base.Encoding
import IavlStore.Tree.Order

/-! Node hashes. A leaf is hashed with its key and the digest of its value, a branch
with the hashes of its children; both carry height, size and version. The digest
function is a parameter. A snapshot stores the hash of every node next to the node
and no branch keys: a branch takes its key from the smallest leaf on its right, so
an ordered tree survives being stored. -/

namespace IavlStore.Tree

open IavlStore.Base.Encoding IavlStore.Base.SortedPairs

variable (sha256 : Bytes → Bytes)

def encodeBytes (bz : Bytes) : Bytes := putUvarint bz.length ++ bz

/-- An unsigned byte read as a signed one. -/
def int8 (n : ℕ) : ℤ := Int.bmod n (2 ^ 8)

theorem int8_le (n : ℕ) : int8 n ≤ 127 := by
  have h := Int.bmod_lt (x := n) (m := 2 ^ 8) (by norm_num)
  unfold int8
  norm_num at h ⊢
  omega

theorem int8_of_lt {n : ℕ} (h : n < 128) : int8 n = n :=
  Int.bmod_eq_of_le (by norm_num) (by norm_num; exact_mod_cast h)

/-- The fields every node writes first. -/
def hashHeader (height size version : ℕ) : Bytes :=
  putVarint height ++ putVarint size ++ putVarint (int64 version)

def leafHashBytes (height size version : ℕ) (key value : Bytes) : Bytes :=
  hashHeader height size version ++ encodeBytes key ++ encodeBytes (sha256 value)

def branchHashBytes (height size version : ℕ) (left right : Bytes) : Bytes :=
  hashHeader height size version ++ encodeBytes left ++ encodeBytes right

/-- The hash recomputed over the whole subtree. -/
def Node.hashNode : Node Bytes Bytes → Bytes
  | .leaf v k x => sha256 (leafHashBytes sha256 0 1 v k x)
  | .branch h s v _ l r => sha256 (branchHashBytes h s v (hashNode l) (hashNode r))

theorem Node.hashNode_length {sha256 : Bytes → Bytes} (hlen : ∀ bytes, (sha256 bytes).length = 32)
    (t : Node Bytes Bytes) : (t.hashNode sha256).length = 32 := by
  cases t <;> exact hlen _

def emptyHash : Bytes := sha256 []

/-- A digest of 32 bytes: the beginning of the data, filled up with zeros. -/
def firstBytes (bytes : Bytes) : Bytes := (bytes ++ List.replicate 32 0).take 32

theorem length_firstBytes (bytes : Bytes) : (firstBytes bytes).length = 32 := by
  simp [firstBytes]

/-! ### Nodes of a snapshot -/

/-- A node of an opened snapshot as its accessors show it. -/
inductive StoredNode where
  | leaf (version : ℕ) (key value hash : Bytes)
  | branch (height size version : ℕ) (hash : Bytes) (left right : StoredNode)
  deriving DecidableEq

namespace StoredNode

def height : StoredNode → ℕ
  | leaf _ _ _ _ => 0
  | branch h _ _ _ _ _ => h

def hash : StoredNode → Bytes
  | leaf _ _ _ hash => hash
  | branch _ _ _ hash _ _ => hash

/-- The node without its stored hashes. -/
def toNode : StoredNode → Node Bytes Bytes
  | leaf v k x _ => .leaf v k x
  | branch h s v _ l r => .branch h s v r.toNode.minKey l.toNode r.toNode

/-- The leaves of the subtree in file order. -/
def leaves (p : StoredNode) : List (Bytes × Bytes) := p.toNode.toList

/-- Every stored hash is the hash of the node it is stored with. -/
def HashOk : StoredNode → Prop
  | leaf v k x hash => hash = Node.hashNode sha256 (.leaf v k x)
  | branch h s v hash l r =>
    hash = Node.hashNode sha256 (branch h s v hash l r).toNode ∧ l.HashOk ∧ r.HashOk

@[simp] theorem height_toNode (p : StoredNode) : p.toNode.height = p.height := by
  cases p <;> rfl

theorem HashOk.hash_eq {p : StoredNode} (h : p.HashOk sha256) :
    p.hash = p.toNode.hashNode sha256 := by
  cases p with
  | leaf => exact h
  | branch => exact h.1

end StoredNode

/-- A tree as a snapshot stores it. -/
def Node.stored : Node Bytes Bytes → StoredNode
  | .leaf v k x => .leaf v k x (Node.hashNode sha256 (.leaf v k x))
  | .branch h s v k l r =>
    .branch h s v (Node.hashNode sha256 (.branch h s v k l r)) (stored l) (stored r)

theorem Node.toNode_stored {t : Node Bytes Bytes} (h : t.Ordered) :
    (t.stored sha256).toNode = t := by
  induction t with
  | leaf => rfl
  | branch ht s v k l r ihl ihr =>
    obtain ⟨-, hk, hl, hr⟩ := h
    rw [stored, StoredNode.toNode, ihl hl, ihr hr, ← hk]

theorem Node.hashOk_stored {t : Node Bytes Bytes} (h : t.Ordered) :
    (t.stored sha256).HashOk sha256 := by
  induction t with
  | leaf => rfl
  | branch ht s v k l r ihl ihr =>
    have ho := h
    obtain ⟨-, hk, hl, hr⟩ := h
    refine ⟨?_, ihl hl, ihr hr⟩
    have := toNode_stored sha256 ho
    rw [stored] at this
    rw [this]

end IavlStore.Tree
