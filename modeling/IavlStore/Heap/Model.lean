import IavlStore.Base.Search
import IavlStore.Tree.Values

/-! Trees on a heap of mutable nodes. A reference is the address of an in-memory
node or a node of a snapshot, which is never written. Changing a node goes through
`mutate`, which clones it when its version is at or below the copy-on-write version
of the tree and writes it in place otherwise. Hashes are computed lazily and kept in
the nodes. A nil dereference of the source is the result `none`. -/

namespace IavlStore.Heap

open IavlStore.Base.Encoding IavlStore.Base.Search IavlStore.Tree

/-- A non-nil node: an in-memory one by its address, or one of a snapshot. -/
inductive Ref where
  | mem (addr : ℕ)
  | persisted (node : StoredNode)
  deriving DecidableEq

structure MemNode where
  height : ℕ
  size : ℕ
  version : ℕ
  key : Bytes
  value : Option Bytes
  left : Option Ref
  right : Option Ref
  hash : Option Bytes
  deriving DecidableEq

/-- The in-memory nodes by address. -/
abbrev Mem := List MemNode

def newLeafNode (key value : Bytes) (version : ℕ) : MemNode :=
  ⟨0, 1, version, key, some value, none, none, none⟩

/-- What the accessors of a snapshot node return. -/
def storedView : StoredNode → MemNode
  | .leaf v k x hash => ⟨0, 1, v, k, some x, none, none, some hash⟩
  | .branch h s v hash l r =>
    ⟨h, s, v, r.toNode.minKey, none, some (.persisted l), some (.persisted r), some hash⟩

namespace Ref

/-- What the accessors of a node return. -/
def view (m : Mem) : Ref → Option MemNode
  | mem a => m[a]?
  | persisted p => some (storedView p)

def isLeaf (m : Mem) : Ref → Option Bool
  | mem a => m[a]?.map fun n => n.height = 0
  | persisted (.leaf ..) => some true
  | persisted (.branch ..) => some false

/-- A node that may be written: the node itself when it is above the copy-on-write
version, a clone otherwise. A snapshot node is always cloned. -/
def mutate (version cowVersion : ℕ) (m : Mem) (r : Ref) : Option (ℕ × Mem) := do
  let n ← r.view m
  let n' := { n with version := version, hash := none }
  match r with
  | mem a => if n.version ≤ cowVersion then some (m.length, m ++ [n']) else some (a, m.set a n')
  | persisted _ => some (m.length, m ++ [n'])

end Ref

/-- Write a field of the node at an address. -/
def modify (a : ℕ) (f : MemNode → MemNode) (m : Mem) : Option Mem :=
  m[a]?.map fun n => m.set a (f n)

def updateHeightSize (a : ℕ) (m : Mem) : Option Mem := do
  let n ← m[a]?
  let l ← (← n.left).view m
  let r ← (← n.right).view m
  modify a (fun n => { n with height := max l.height r.height + 1, size := l.size + r.size }) m

def calcBalance (r : Ref) (m : Mem) : Option ℤ := do
  let n ← r.view m
  let left ← (← n.left).view m
  let right ← (← n.right).view m
  some ((left.height : ℤ) - right.height)

def rotateRight (version cowVersion a : ℕ) (m : Mem) : Option (ℕ × Mem) := do
  let n ← m[a]?
  let left ← n.left
  let (newSelf, m) ← left.mutate version cowVersion m
  let leftView ← left.view m
  let m ← modify a (fun n => { n with left := leftView.right }) m
  let m ← modify newSelf (fun n => { n with right := some (.mem a) }) m
  let m ← updateHeightSize a m
  let m ← updateHeightSize newSelf m
  some (newSelf, m)

def rotateLeft (version cowVersion a : ℕ) (m : Mem) : Option (ℕ × Mem) := do
  let n ← m[a]?
  let right ← n.right
  let (newSelf, m) ← right.mutate version cowVersion m
  let rightView ← right.view m
  let m ← modify a (fun n => { n with right := rightView.left }) m
  let m ← modify newSelf (fun n => { n with left := some (.mem a) }) m
  let m ← updateHeightSize a m
  let m ← updateHeightSize newSelf m
  some (newSelf, m)

/-- The node at `a` was returned by `mutate`. -/
def reBalance (version cowVersion a : ℕ) (m : Mem) : Option (ℕ × Mem) := do
  let n ← m[a]?
  let left ← n.left
  let right ← n.right
  let balance ← calcBalance (.mem a) m
  if 1 < balance then
    let leftBalance ← calcBalance left m
    if 0 ≤ leftBalance then
      -- left left
      rotateRight version cowVersion a m
    else
      -- left right
      let (b, m) ← left.mutate version cowVersion m
      let (b, m) ← rotateLeft version cowVersion b m
      let m ← modify a (fun n => { n with left := some (.mem b) }) m
      rotateRight version cowVersion a m
  else if balance < -1 then
    let rightBalance ← calcBalance right m
    if rightBalance ≤ 0 then
      -- right right
      rotateLeft version cowVersion a m
    else
      -- right left
      let (b, m) ← right.mutate version cowVersion m
      let (b, m) ← rotateRight version cowVersion b m
      let m ← modify a (fun n => { n with right := some (.mem b) }) m
      rotateLeft version cowVersion a m
  else some (a, m)

/-- The address of the new node and whether a present key was updated. The fuel
bounds the depth of the recursion. -/
def setRecursive (key value : Bytes) (version cowVersion : ℕ) :
    ℕ → Ref → Mem → Option ((ℕ × Bool) × Mem)
  | 0, _, _ => none
  | fuel + 1, node, m => do
    let n ← node.view m
    let leaf ← node.isLeaf m
    if leaf then
      if key < n.key then
        let m := m ++ [newLeafNode key value version]
        some ((m.length, false), m ++ [⟨1, 2, version, n.key, none, some (.mem (m.length - 1)),
          some node, none⟩])
      else if n.key < key then
        let m := m ++ [newLeafNode key value version]
        some ((m.length, false), m ++ [⟨1, 2, version, key, none, some node,
          some (.mem (m.length - 1)), none⟩])
      else
        let (a, m) ← node.mutate version cowVersion m
        let m ← modify a (fun n => { n with value := some value }) m
        some ((a, true), m)
    else if key < n.key then
      let ((child, updated), m) ← setRecursive key value version cowVersion fuel (← n.left) m
      let (a, m) ← node.mutate version cowVersion m
      let m ← modify a (fun n => { n with left := some (.mem child) }) m
      if updated then some ((a, true), m)
      else
        let m ← updateHeightSize a m
        let (a, m) ← reBalance version cowVersion a m
        some ((a, false), m)
    else
      let ((child, updated), m) ← setRecursive key value version cowVersion fuel (← n.right) m
      let (a, m) ← node.mutate version cowVersion m
      let m ← modify a (fun n => { n with right := some (.mem child) }) m
      if updated then some ((a, true), m)
      else
        let m ← updateHeightSize a m
        let (a, m) ← reBalance version cowVersion a m
        some ((a, false), m)

/-- The removed value, the remaining node and the new smallest key, each nil where
there is none. -/
structure Removed where
  value : Option Bytes
  node : Option Ref
  newKey : Option Bytes

def removeRecursive (key : Bytes) (version cowVersion : ℕ) :
    ℕ → Ref → Mem → Option (Removed × Mem)
  | 0, _, _ => none
  | fuel + 1, node, m => do
    let n ← node.view m
    let leaf ← node.isLeaf m
    if leaf then
      if n.key = key then some (⟨n.value, none, none⟩, m) else some (⟨none, some node, none⟩, m)
    else if key < n.key then
      let (new, m) ← removeRecursive key version cowVersion fuel (← n.left) m
      match new.value, new.node with
      | none, _ => some (⟨none, some node, none⟩, m)
      | some x, none =>
        let n ← node.view m
        some (⟨some x, n.right, some n.key⟩, m)
      | some x, some newLeft =>
        let (a, m) ← node.mutate version cowVersion m
        let m ← modify a (fun n => { n with left := some newLeft }) m
        let m ← updateHeightSize a m
        let (a, m) ← reBalance version cowVersion a m
        some (⟨some x, some (.mem a), new.newKey⟩, m)
    else
      let (new, m) ← removeRecursive key version cowVersion fuel (← n.right) m
      match new.value, new.node with
      | none, _ => some (⟨none, some node, none⟩, m)
      | some x, none =>
        let n ← node.view m
        some (⟨some x, n.left, none⟩, m)
      | some x, some newRight =>
        let (a, m) ← node.mutate version cowVersion m
        let m ← modify a (fun n => { n with right := some newRight, key := new.newKey.getD n.key }) m
        let m ← updateHeightSize a m
        let (a, m) ← reBalance version cowVersion a m
        some (⟨some x, some (.mem a), none⟩, m)

/-- The cached hash, or the hash computed from the children's and then cached. -/
def hash (sha256 : Bytes → Bytes) : ℕ → Ref → Mem → Option (Bytes × Mem)
  | 0, _, _ => none
  | _ + 1, .persisted p, m => some (p.hash, m)
  | fuel + 1, .mem a, m => do
    let n ← m[a]?
    match n.hash with
    | some h => some (h, m)
    | none =>
      if n.height = 0 then
        let h := sha256 (leafHashBytes sha256 n.height n.size n.version n.key (n.value.getD []))
        let m ← modify a (fun n => { n with hash := some h }) m
        some (h, m)
      else
        let (left, m) ← hash sha256 fuel (← n.left) m
        let (right, m) ← hash sha256 fuel (← n.right) m
        let h := sha256 (branchHashBytes n.height n.size n.version left right)
        let m ← modify a (fun n => { n with hash := some h }) m
        some (h, m)

/-- The value of a key, nil for an absent one, and the number of smaller keys. A
snapshot node searches the leaves of its subtree. -/
def get (key : Bytes) : ℕ → Ref → Mem → Option (Option Bytes × UInt32)
  | 0, _, _ => none
  | _ + 1, .persisted p, _ =>
    let found := searchPair key p.leaves
    some (found.1, UInt32.ofNat found.2)
  | fuel + 1, .mem a, m => do
    let n ← m[a]?
    if n.height = 0 then
      if n.key < key then some (none, 1)
      else if key < n.key then some (none, 0)
      else some (n.value, 0)
    else if key < n.key then get key fuel (← n.left) m
    else
      let right ← n.right
      let (value, index) ← get key fuel right m
      let rightView ← right.view m
      some (value, index + UInt32.ofNat n.size - UInt32.ofNat rightView.size)

/-- The nodes as a snapshot writer stores them, children first. -/
def writeRecursive (sha256 : Bytes → Bytes) : ℕ → Ref → Mem → Option (StoredNode × Mem)
  | 0, _, _ => none
  | fuel + 1, node, m => do
    let n ← node.view m
    let leaf ← node.isLeaf m
    if leaf then
      let (h, m) ← hash sha256 (fuel + 1) node m
      some (.leaf n.version n.key (n.value.getD []) h, m)
    else
      let (left, m) ← writeRecursive sha256 fuel (← n.left) m
      let (right, m) ← writeRecursive sha256 fuel (← n.right) m
      let (h, m) ← hash sha256 (fuel + 1) node m
      some (.branch n.height n.size n.version h left right, m)

/-- The tree below a node with everything but the cached hashes. -/
def load : ℕ → Ref → Mem → Option (Node Bytes Bytes)
  | 0, _, _ => none
  | _ + 1, .persisted p, _ => some p.toNode
  | fuel + 1, .mem a, m => do
    let n ← m[a]?
    if n.height = 0 then some (.leaf n.version n.key (n.value.getD []))
    else
      let left ← load fuel (← n.left) m
      let right ← load fuel (← n.right) m
      some (.branch n.height n.size n.version n.key left right)

end IavlStore.Heap
