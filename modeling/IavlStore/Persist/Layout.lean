import IavlStore.Base.Search
import IavlStore.Base.Slices
import IavlStore.Tree.Values

/-! The files of a snapshot and the nodes read from them. Branches and leaves are stored
in two arrays of fixed-size records, keys and values in a third file. A branch record
names no children: their indices are inferred from its own index, its size, the index
of the smallest leaf on its right and the number of pending trees before it, in 32-bit
arithmetic. An index or offset out of range is the result `none`. -/

namespace IavlStore.Persist

open IavlStore.Base.Encoding IavlStore.Base.Search IavlStore.Base.Slices

/-- Arithmetic in unsigned 32-bit numbers. -/
def u32 (x : ℤ) : ℕ := (x % 2 ^ 32).toNat

/-- Arithmetic in unsigned 64-bit numbers. -/
def u64 (x : ℕ) : ℕ := x % 2 ^ 64

def snapshotFileMagic : ℕ := 1280721225
def snapshotFormat : ℕ := 0
def sizeMetadata : ℕ := 16
def sizeHash : ℕ := 32
def sizeNode : ℕ := 52
def sizeLeaf : ℕ := 52

/-- The files of a snapshot directory. -/
structure Files where
  nodes : Bytes
  leaves : Bytes
  kvs : Bytes
  metadata : Bytes

/-! ### Records -/

/-- A branch record. -/
structure NodeLayout where
  data : Bytes

namespace NodeLayout

def height (r : NodeLayout) : ℕ := readLE (r.data.take 1)
def preTrees (r : NodeLayout) : ℕ := readLE ((r.data.drop 1).take 1)
def version (r : NodeLayout) : ℕ := readLE ((r.data.drop 4).take 8)
def size (r : NodeLayout) : ℕ := readLE ((r.data.drop 12).take 4)
def keyLeaf (r : NodeLayout) : ℕ := readLE ((r.data.drop 16).take 4)
def hash (r : NodeLayout) : Bytes := (r.data.drop 20).take sizeHash

end NodeLayout

/-- A leaf record. -/
structure LeafLayout where
  data : Bytes

namespace LeafLayout

def version (r : LeafLayout) : ℕ := readLE (r.data.take 8)
def keyLength (r : LeafLayout) : ℕ := readLE ((r.data.drop 8).take 4)
def keyOffset (r : LeafLayout) : ℕ := readLE ((r.data.drop 12).take 8)
def hash (r : LeafLayout) : Bytes := (r.data.drop 20).take sizeHash

end LeafLayout

/-! ### Nodes -/

/-- A node by its index among the leaves or among the branches. -/
structure PersistedNode where
  isLeaf : Bool
  index : ℕ
  deriving DecidableEq

/-- An opened snapshot. The root is `none` for an empty tree. -/
structure Snapshot where
  nodes : Bytes
  leaves : Bytes
  kvs : Bytes
  version : ℕ
  root : Option PersistedNode

namespace Snapshot

def node (s : Snapshot) (i : ℕ) : Option NodeLayout :=
  (slice s.nodes (i * sizeNode) sizeNode).map .mk

def leaf (s : Snapshot) (i : ℕ) : Option LeafLayout :=
  (slice s.leaves (i * sizeLeaf) sizeLeaf).map .mk

/-- A pair by its place in the third file. -/
def keyValue (s : Snapshot) (offset : ℕ) : Option (Bytes × Bytes) := do
  let length := readLE (← slice s.kvs offset 4)
  let offset := u64 (offset + 4)
  let key ← slice s.kvs offset length
  let offset := u64 (offset + length)
  let length := readLE (← slice s.kvs offset 4)
  let value ← slice s.kvs (u64 (offset + 4)) length
  some (key, value)

def leafKey (s : Snapshot) (index : ℕ) : Option Bytes := do
  let leaf ← s.leaf index
  slice s.kvs (u64 (leaf.keyOffset + 4)) leaf.keyLength

def leafKeyValue (s : Snapshot) (index : ℕ) : Option (Bytes × Bytes) := do
  let leaf ← s.leaf index
  let offset := u64 (leaf.keyOffset + 4)
  let key ← slice s.kvs offset leaf.keyLength
  let offset := u64 (offset + leaf.keyLength)
  let length := readLE (← slice s.kvs offset 4)
  let value ← slice s.kvs (u64 (offset + 4)) length
  some (key, value)

def nodesLen (s : Snapshot) : ℕ := s.nodes.length / sizeNode

def leavesLen (s : Snapshot) : ℕ := s.leaves.length / sizeLeaf

end Snapshot

/-- The index of the first leaf of a branch. -/
def getStartLeaf (index size preTrees : ℕ) : ℕ := u32 ((index : ℤ) + 2 - size + preTrees)

/-- The index of the last leaf of a branch. -/
def getEndLeaf (index preTrees : ℕ) : ℕ := u32 ((index : ℤ) + preTrees + 1)

/-- The index of the left child of a branch when it is a branch. -/
def getLeftBranch (keyLeaf preTrees : ℕ) : ℕ := u32 ((keyLeaf : ℤ) - preTrees - 2)

namespace PersistedNode

variable (s : Snapshot) (n : PersistedNode)

def height : Option ℕ := if n.isLeaf then some 0 else (s.node n.index).map NodeLayout.height

def version : Option ℕ :=
  if n.isLeaf then (s.leaf n.index).map LeafLayout.version
  else (s.node n.index).map NodeLayout.version

def size : Option ℕ := if n.isLeaf then some 1 else (s.node n.index).map NodeLayout.size

def key : Option Bytes :=
  if n.isLeaf then s.leafKey n.index
  else do s.leafKey (← s.node n.index).keyLeaf

/-- Nil for a branch. -/
def value : Option (Option Bytes) :=
  if n.isLeaf then (s.leafKeyValue n.index).map fun p => some p.2 else some none

def hash : Option Bytes :=
  if n.isLeaf then (s.leaf n.index).map LeafLayout.hash else (s.node n.index).map NodeLayout.hash

def left : Option PersistedNode :=
  if n.isLeaf then none
  else do
    let data ← s.node n.index
    let startLeaf := getStartLeaf n.index data.size data.preTrees
    if u32 (startLeaf + 1) = data.keyLeaf then some ⟨true, startLeaf⟩
    else some ⟨false, getLeftBranch data.keyLeaf data.preTrees⟩

def right : Option PersistedNode :=
  if n.isLeaf then none
  else do
    let data ← s.node n.index
    if data.keyLeaf = getEndLeaf n.index data.preTrees then some ⟨true, data.keyLeaf⟩
    else some ⟨false, u32 ((n.index : ℤ) - 1)⟩

/-- The first leaf and the number of leaves of a subtree. -/
def leafRange : Option (ℕ × ℕ) :=
  if n.isLeaf then some (n.index, 1)
  else do
    let data ← s.node n.index
    some (getStartLeaf n.index data.size data.preTrees, data.size)

/-- Binary search in the leaves of the subtree. -/
def get (key : Bytes) : Option (Option Bytes × ℕ) := do
  let (start, count) ← n.leafRange s
  let i := search count fun i => ((s.leafKey (u32 (start + i))).map fun k => decide (key ≤ k)).getD true
  let leaf := u32 (i + start)
  if u32 (start + count) ≤ leaf then some (none, i)
  else
    let (nodeKey, value) ← s.leafKeyValue leaf
    if nodeKey = key then some (some value, i) else some (none, i)

/-- Nil beyond the last leaf of the subtree. -/
def getByIndex (leafIndex : ℕ) : Option (Option Bytes × Option Bytes) :=
  if n.isLeaf then
    if leafIndex ≠ 0 then some (none, none)
    else (s.leafKeyValue n.index).map fun p => (some p.1, some p.2)
  else do
    let data ← s.node n.index
    let i := u32 (getStartLeaf n.index data.size data.preTrees + leafIndex)
    if getEndLeaf n.index data.preTrees < i then some (none, none)
    else (s.leafKeyValue i).map fun p => (some p.1, some p.2)

end PersistedNode

/-! ### Opening -/

/-- Why a directory is not opened as a snapshot. -/
inductive OpenError where
  | metadataSize (found : ℕ)
  | magic (found : ℕ)
  | format (found : ℕ)
  | nodesSize (found : ℕ)
  | leavesSize (found : ℕ)
  | mismatch (nodes leaves : ℕ)

def openSnapshot (f : Files) : Except OpenError Snapshot := do
  if f.metadata.length ≠ sizeMetadata then throw (.metadataSize f.metadata.length)
  let magic := readLE (f.metadata.take 4)
  if magic ≠ snapshotFileMagic then throw (.magic magic)
  let format := readLE ((f.metadata.drop 4).take 4)
  if format ≠ snapshotFormat then throw (.format format)
  let version := readLE ((f.metadata.drop 8).take 8)
  if f.nodes.length % sizeNode ≠ 0 then throw (.nodesSize f.nodes.length)
  if f.leaves.length % sizeLeaf ≠ 0 then throw (.leavesSize f.leaves.length)
  let nodesLen := f.nodes.length / sizeNode
  let leavesLen := f.leaves.length / sizeLeaf
  if 0 < leavesLen ∧ nodesLen + 1 ≠ leavesLen ∨ leavesLen = 0 ∧ nodesLen ≠ 0 then
    throw (.mismatch nodesLen leavesLen)
  let root : Option PersistedNode :=
    if 0 < nodesLen then some ⟨false, u32 ((nodesLen : ℤ) - 1)⟩
    else if 0 < leavesLen then some ⟨true, 0⟩
    else none
  return ⟨f.nodes, f.leaves, f.kvs, version, root⟩

end IavlStore.Persist
