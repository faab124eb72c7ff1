import IavlStore.Base.SortedPairs

/-! Tree nodes as values: the node interface, the AVL rotations, and the
recursive update and removal of one key. `Mutate` gives a node the version being
written; whether it clones or writes in place is not visible on values, and the
heap model shows that the running code computes these functions. -/

namespace IavlStore.Tree

variable {K V : Type*}

/-- A node with the fields its accessors return. -/
inductive Node (K V : Type*) where
  | leaf (version : ℕ) (key : K) (value : V)
  | branch (height size version : ℕ) (key : K) (left right : Node K V)
  deriving DecidableEq, Repr

namespace Node

def height : Node K V → ℕ
  | leaf _ _ _ => 0
  | branch h _ _ _ _ _ => h

def size : Node K V → ℕ
  | leaf _ _ _ => 1
  | branch _ s _ _ _ _ => s

def version : Node K V → ℕ
  | leaf v _ _ => v
  | branch _ _ v _ _ _ => v

def key : Node K V → K
  | leaf _ k _ => k
  | branch _ _ _ k _ _ => k

@[simp] theorem height_leaf (v : ℕ) (k : K) (x : V) : (leaf v k x).height = 0 := rfl

@[simp] theorem height_branch (h s v : ℕ) (k : K) (l r : Node K V) :
    (branch h s v k l r).height = h := rfl

@[simp] theorem size_branch (h s v : ℕ) (k : K) (l r : Node K V) :
    (branch h s v k l r).size = s := rfl

@[simp] theorem version_branch (h s v : ℕ) (k : K) (l r : Node K V) :
    (branch h s v k l r).version = v := rfl

/-- The key and value of every leaf, from left to right. -/
def toList : Node K V → List (K × V)
  | leaf _ k v => [(k, v)]
  | branch _ _ _ _ l r => l.toList ++ r.toList

theorem toList_ne_nil (t : Node K V) : t.toList ≠ [] := by
  induction t with
  | leaf => simp [toList]
  | branch _ _ _ _ _ _ ihl _ => simp [toList, ihl]

/-- The key of the leftmost leaf. -/
def minKey : Node K V → K
  | leaf _ k _ => k
  | branch _ _ _ _ l _ => l.minKey

/-- `Mutate`: the same node at the version being written. -/
def mutate (version : ℕ) : Node K V → Node K V
  | leaf _ k v => leaf version k v
  | branch h s _ k l r => branch h s version k l r

def updateHeightSize : Node K V → Node K V
  | leaf v k x => leaf v k x
  | branch _ _ v k l r => branch (max l.height r.height + 1) (l.size + r.size) v k l r

/-- A branch with the height and size its children give it. -/
def join (version : ℕ) (key : K) (left right : Node K V) : Node K V :=
  branch (max left.height right.height + 1) (left.size + right.size) version key left right

@[simp] theorem updateHeightSize_branch (h s v : ℕ) (k : K) (l r : Node K V) :
    updateHeightSize (branch h s v k l r) = join v k l r := rfl

@[simp] theorem height_join (v : ℕ) (k : K) (l r : Node K V) :
    (join v k l r).height = max l.height r.height + 1 := rfl

@[simp] theorem size_join (v : ℕ) (k : K) (l r : Node K V) :
    (join v k l r).size = l.size + r.size := rfl

@[simp] theorem version_join (v : ℕ) (k : K) (l r : Node K V) : (join v k l r).version = v := rfl

@[simp] theorem toList_join (v : ℕ) (k : K) (l r : Node K V) :
    (join v k l r).toList = l.toList ++ r.toList := rfl

@[simp] theorem minKey_join (v : ℕ) (k : K) (l r : Node K V) :
    (join v k l r).minKey = l.minKey := rfl

def calcBalance : Node K V → ℤ
  | leaf _ _ _ => 0
  | branch _ _ _ _ l r => (l.height : ℤ) - r.height

@[simp] theorem calcBalance_branch (h s v : ℕ) (k : K) (l r : Node K V) :
    calcBalance (branch h s v k l r) = (l.height : ℤ) - r.height := rfl

/-- The left child becomes the root. A leaf on the left has no right child to
move, and is never rotated. -/
def rotateRight (version : ℕ) : Node K V → Node K V
  | branch h s v k (branch lh ls _ lk ll lr) r =>
    updateHeightSize (branch lh ls version lk ll (updateHeightSize (branch h s v k lr r)))
  | node => node

def rotateLeft (version : ℕ) : Node K V → Node K V
  | branch h s v k l (branch rh rs _ rk rl rr) =>
    updateHeightSize (branch rh rs version rk (updateHeightSize (branch h s v k l rl)) rr)
  | node => node

theorem rotateRight_branch (n h s v lh ls lv : ℕ) (k lk : K) (ll lr r : Node K V) :
    rotateRight n (branch h s v k (branch lh ls lv lk ll lr) r) =
      join n lk ll (join v k lr r) := rfl

theorem rotateLeft_branch (n h s v rh rs rv : ℕ) (k rk : K) (l rl rr : Node K V) :
    rotateLeft n (branch h s v k l (branch rh rs rv rk rl rr)) =
      join n rk (join v k l rl) rr := rfl

def reBalance (version : ℕ) : Node K V → Node K V
  | leaf v k x => leaf v k x
  | branch h s v k l r =>
    let balance := calcBalance (branch h s v k l r)
    if 1 < balance then
      if 0 ≤ l.calcBalance then
        -- left left
        rotateRight version (branch h s v k l r)
      else
        -- left right
        rotateRight version (branch h s v k (rotateLeft version (l.mutate version)) r)
    else if balance < -1 then
      if r.calcBalance ≤ 0 then
        -- right right
        rotateLeft version (branch h s v k l r)
      else
        -- right left
        rotateLeft version (branch h s v k l (rotateRight version (r.mutate version)))
    else branch h s v k l r

theorem reBalance_branch (n h s v : ℕ) (k : K) (l r : Node K V) :
    reBalance n (branch h s v k l r) =
      if 1 < (l.height : ℤ) - r.height then
        if 0 ≤ l.calcBalance then rotateRight n (branch h s v k l r)
        else rotateRight n (branch h s v k (rotateLeft n (l.mutate n)) r)
      else if (l.height : ℤ) - r.height < -1 then
        if r.calcBalance ≤ 0 then rotateLeft n (branch h s v k l r)
        else rotateLeft n (branch h s v k l (rotateRight n (r.mutate n)))
      else branch h s v k l r := rfl

variable [LinearOrder K]

/-- The new node, and whether a present key was updated; an update leaves heights
and the balance alone. -/
def setRecursive (key : K) (value : V) (version : ℕ) : Node K V → Node K V × Bool
  | leaf v k x =>
    if key < k then (branch 1 2 version k (leaf version key value) (leaf v k x), false)
    else if k < key then (branch 1 2 version key (leaf v k x) (leaf version key value), false)
    else (leaf version k value, true)
  | branch h s _ k l r =>
    if key < k then
      let new := l.setRecursive key value version
      let node := branch h s version k new.1 r
      if new.2 then (node, true) else (reBalance version (updateHeightSize node), false)
    else
      let new := r.setRecursive key value version
      let node := branch h s version k l new.1
      if new.2 then (node, true) else (reBalance version (updateHeightSize node), false)

/-- What a removal returns: the removed value if any, the remaining subtree if
any, and the new smallest key of the subtree when its smallest leaf is gone. -/
structure Removed (K V : Type*) where
  value : Option V
  node : Option (Node K V)
  newKey : Option K

def removeRecursive (key : K) (version : ℕ) : Node K V → Removed K V
  | leaf v k x =>
    if k = key then ⟨some x, none, none⟩ else ⟨none, some (leaf v k x), none⟩
  | branch h s v k l r =>
    if key < k then
      let new := l.removeRecursive key version
      match new.value, new.node with
      | none, _ => ⟨none, some (branch h s v k l r), none⟩
      | some x, none => ⟨some x, some r, some k⟩
      | some x, some l' =>
        ⟨some x, some (reBalance version (updateHeightSize (branch h s version k l' r))), new.newKey⟩
    else
      let new := r.removeRecursive key version
      match new.value, new.node with
      | none, _ => ⟨none, some (branch h s v k l r), none⟩
      | some x, none => ⟨some x, some l, none⟩
      | some x, some r' =>
        ⟨some x, some (reBalance version
          (updateHeightSize (branch h s version (new.newKey.getD k) l r'))), none⟩

end Node

end IavlStore.Tree
