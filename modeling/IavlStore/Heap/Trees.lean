import IavlStore.Base.Runs
import IavlStore.Heap.Hash

/-! The tree object over the heap: a version, a copy-on-write version, a root and an
optional cache of looked-up pairs. Its operations are driven by events, and every
event does to the tree read off the heap what it does to the tree as a value. The
cache is that of another library and known by its laws: it returns the pair last added
for a key, or misses. -/

namespace IavlStore.Heap

open IavlStore.Base.Encoding IavlStore.Base.SortedPairs IavlStore.Base.Runs IavlStore.Tree Rep

/-- An LRU cache of pairs. What is evicted, and when, is not known. -/
structure Cache (C : Type) where
  new : ℤ → C
  add : C → Bytes → Bytes → C
  get : C → Bytes → Option Bytes × C
  remove : C → Bytes → C
  get_new : ∀ size key, (get (new size) key).1 = none
  get_add : ∀ c key value key' x, (get (add c key value) key').1 = some x →
    if key' = key then x = value else (get c key').1 = some x
  get_get : ∀ c key key' x, (get (get c key).2 key').1 = some x → (get c key').1 = some x
  get_remove : ∀ c key key' x, (get (remove c key) key').1 = some x →
    key' ≠ key ∧ (get c key').1 = some x

/-- A cache that keeps the given number of most recently used pairs. -/
def lruCache : Cache (ℤ × List (Bytes × Bytes)) where
  new size := (size, [])
  add c key value := (c.1, ((key, value) :: erasePair key c.2).take c.1.toNat)
  get c key := (lookupPair key c.2, c.1,
    match lookupPair key c.2 with
    | some x => (key, x) :: erasePair key c.2
    | none => c.2)
  remove c key := (c.1, erasePair key c.2)
  get_new _ _ := rfl
  get_add c key value key' x h := by
    have h' := lookupPair_of_take h
    rw [lookupPair_cons, lookupPair_erasePair] at h'
    split_ifs at h' ⊢
    · exact (Option.some.inj h').symm
    · exact h'
  get_get c key key' x h := by
    dsimp only at h ⊢
    split at h
    · next y hy =>
      rw [lookupPair_cons, lookupPair_erasePair] at h
      split_ifs at h with hk
      · rw [hk, hy, h]
      · exact h
    · exact h
  get_remove c key key' x h := by
    dsimp only at h ⊢
    rw [lookupPair_erasePair] at h
    split_ifs at h with hk
    exact ⟨hk, h⟩

/-- Set a key below a root that may be nil; the address of the new root. -/
def setRoot (key value : Bytes) (version cowVersion : ℕ) : Option Ref → Mem → Option (ℕ × Mem)
  | none, m => some (m.length, m ++ [newLeafNode key value version])
  | some r, m => do
    let n ← r.view m
    let ((a, _), m) ← setRecursive key value version cowVersion (n.height + 1) r m
    some (a, m)

/-- Remove a key below a root that may be nil; the new root. -/
def removeRoot (key : Bytes) (version cowVersion : ℕ) :
    Option Ref → Mem → Option (Option Ref × Mem)
  | none, m => some (none, m)
  | some r, m => do
    let n ← r.view m
    let (new, m) ← removeRecursive key version cowVersion (n.height + 1) r m
    some (new.node, m)

structure HTree (C : Type) where
  version : ℕ
  cowVersion : ℕ
  root : Option Ref
  cache : Option C

namespace HTree

variable {C : Type} (K : Cache C) (sha256 : Bytes → Bytes)

def newCache (cacheSize : ℤ) : Option C := if cacheSize = 0 then none else some (K.new cacheSize)

def newEmptyTree (version : ℕ) (cacheSize : ℤ) : HTree C := ⟨version, 0, none, newCache K cacheSize⟩

/-- A tree over an opened snapshot, whose root is `none` when it is empty. -/
def newFromSnapshot (version : ℕ) (root : Option StoredNode) (cacheSize : ℤ) : HTree C :=
  ⟨version, 0, root.map .persisted, newCache K cacheSize⟩

/-- The copy takes the nodes over; in-memory ones are protected in both trees. -/
def copy (t : HTree C) (cacheSize : ℤ) : HTree C × HTree C :=
  let t := match t.root with
    | some (.mem _) => { t with cowVersion := t.version }
    | _ => t
  (t, { t with cache := newCache K cacheSize })

def set (t : HTree C) (key : Bytes) (value : Option Bytes) (m : Mem) : Option (HTree C × Mem) := do
  let value := value.getD []
  let (a, m) ← setRoot key value (next t.version) t.cowVersion t.root m
  some ({ t with root := some (.mem a), cache := t.cache.map (K.add · key value) }, m)

def remove (t : HTree C) (key : Bytes) (m : Mem) : Option (HTree C × Mem) := do
  let (root, m) ← removeRoot key (next t.version) t.cowVersion t.root m
  some ({ t with root := root, cache := t.cache.map (K.remove · key) }, m)

def applyPair (t : HTree C) (pair : KVPair) (m : Mem) : Option (HTree C × Mem) :=
  if pair.delete then t.remove K pair.key m else t.set K pair.key pair.value m

def applyChangeSet (t : HTree C) : ChangeSet → Mem → Option (HTree C × Mem)
  | [], m => some (t, m)
  | pair :: pairs, m => do
    let (t, m) ← t.applyPair K pair m
    applyChangeSet t pairs m

def rootHash (t : HTree C) (m : Mem) : Option (Bytes × Mem) :=
  match t.root with
  | none => some (emptyHash sha256, m)
  | some r => do hash sha256 ((← r.view m).height + 1) r m

/-- The hash, if asked for, and the new version; `none` in place of both for the
overflow error. -/
def saveVersion (t : HTree C) (updateHash : Bool) (m : Mem) :
    Option (Option (Option Bytes × ℕ) × HTree C × Mem) :=
  if maxInt64 < next t.version then some (none, t, m)
  else do
    let (h, m) ← if updateHash then do
        let (h, m) ← t.rootHash sha256 m
        some (some h, m)
      else some (none, m)
    some (some (h, next t.version), { t with version := next t.version }, m)

def getWithIndex (t : HTree C) (key : Bytes) (m : Mem) : Option (UInt32 × Option Bytes) :=
  match t.root with
  | none => some (0, none)
  | some r => do
    let (value, index) ← Heap.get key ((← r.view m).height + 1) r m
    some (index, value)

/-- The cached value, or the value in the tree, which is then cached. -/
def get (t : HTree C) (key : Bytes) (m : Mem) : Option (Option Bytes × HTree C) := do
  let hit := t.cache.map (K.get · key)
  let t := { t with cache := hit.map Prod.snd }
  match hit.bind Prod.fst with
  | some value => some (some value, t)
  | none =>
    let (_, value) ← t.getWithIndex key m
    match value with
    | none => some (none, t)
    | some x => some (some x, { t with cache := t.cache.map (K.add · key x) })

def has (t : HTree C) (key : Bytes) (m : Mem) : Option (Bool × HTree C) := do
  let (value, t) ← t.get K key m
  some (value.isSome, t)

/-- Write a snapshot and open it in place of the tree. -/
def reload (t : HTree C) (cacheSize : ℤ) (m : Mem) : Option (HTree C × Mem) := do
  match t.root with
  | none => some (newFromSnapshot K t.version none cacheSize, m)
  | some r =>
    let (root, m) ← writeRecursive sha256 ((← r.view m).height + 1) r m
    some (newFromSnapshot K t.version (some root) cacheSize, m)

/-- The tree as a value, read off the heap without cached hashes. -/
def load (t : HTree C) (m : Mem) : Option Tree :=
  match t.root with
  | none => some ⟨t.version, none⟩
  | some r => do
    let n ← Heap.load ((← r.view m).height + 1) r m
    some ⟨t.version, some n⟩

end HTree

/-- A call on a tree. After `copy` the run goes on with the copy or the original. -/
inductive Event where
  | set (key : Bytes) (value : Option Bytes)
  | remove (key : Bytes)
  | applyChangeSet (changeSet : ChangeSet)
  | saveVersion (updateHash : Bool)
  | rootHash
  | copy (cacheSize : ℤ) (follow : Bool)
  | get (key : Bytes)
  | has (key : Bytes)
  | reload (cacheSize : ℤ)

/-- What a call returns. -/
inductive Output where
  | none
  | saved (result : Option (Option Bytes × ℕ))
  | hash (hash : Bytes)
  | value (value : Option Bytes)
  | present (present : Bool)
  deriving DecidableEq

section Machines
variable {C : Type} (K : Cache C) (sha256 : Bytes → Bytes)

def step (s : HTree C × Mem) : Event → Option ((HTree C × Mem) × Output)
  | .set key value => do some (← s.1.set K key value s.2, .none)
  | .remove key => do some (← s.1.remove K key s.2, .none)
  | .applyChangeSet cs => do some (← s.1.applyChangeSet K cs s.2, .none)
  | .saveVersion updateHash => do
    let (result, t, m) ← s.1.saveVersion sha256 updateHash s.2
    some ((t, m), .saved result)
  | .rootHash => do
    let (h, m) ← s.1.rootHash sha256 s.2
    some ((s.1, m), .hash h)
  | .copy cacheSize follow =>
    let (old, new) := s.1.copy K cacheSize
    some ((if follow then new else old, s.2), .none)
  | .get key => do
    let (value, t) ← s.1.get K key s.2
    some ((t, s.2), .value value)
  | .has key => do
    let (present, t) ← s.1.has K key s.2
    some ((t, s.2), .present present)
  | .reload cacheSize => do some (← s.1.reload K sha256 cacheSize s.2, .none)

/-- The same calls on the tree as a value, which has no representation to change. -/
def valueStep (t : Tree) : Event → Tree × Output
  | .set key value => (t.set key value, .none)
  | .remove key => (t.remove key, .none)
  | .applyChangeSet cs => (t.applyChangeSet cs, .none)
  | .saveVersion updateHash =>
    match t.saveVersion with
    | none => (t, .saved none)
    | some t' =>
      (t', .saved (some (if updateHash then some (t.rootHash sha256) else none, t'.version)))
  | .rootHash => (t, .hash (t.rootHash sha256))
  | .copy _ _ => (t, .none)
  | .get key => (t, .value (lookupPair key t.pairs))
  | .has key => (t, .present (lookupPair key t.pairs).isSome)
  | .reload _ => (t, .none)

end Machines

end IavlStore.Heap
