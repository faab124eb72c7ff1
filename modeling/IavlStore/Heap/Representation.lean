import IavlStore.Heap.Simulation

/-! Root hashes do not depend on the representation. Two runs over the same changes may
ask for hashes, copy the tree and go through snapshots at different places; after every
saved version they have the same root hash, and it is the hash recomputed over the whole
tree. -/

namespace IavlStore.Heap

open IavlStore.Base.Encoding IavlStore.Base.SortedPairs IavlStore.Base.Runs IavlStore.Tree

/-- What a run does to the contents: changes, grouped into versions by saving. -/
inductive Change where
  | apply (changeSet : ChangeSet)
  | save
  deriving DecidableEq

/-- The change a call makes. Hashing, copying, reading and reloading make none. -/
def Event.change : Event → Option Change
  | .set key value => some (.apply [⟨false, key, value⟩])
  | .remove key => some (.apply [⟨true, key, none⟩])
  | .applyChangeSet cs => some (.apply cs)
  | .saveVersion _ => some .save
  | _ => none

def Change.run (t : Tree) : Change → Tree
  | .apply cs => t.applyChangeSet cs
  | .save => t.saveVersion.getD t

variable {C : Type} (K : Cache C) (sha256 : Bytes → Bytes)

/-- An observation of the tree after every `SaveVersion` of a run. -/
def observeSaves {O : Type} (obs : HTree C × Mem → Option O) :
    HTree C × Mem → List Event → Option (List O)
  | _, [] => some []
  | s, e :: es => do
    let (s, _) ← step K sha256 s e
    match e with
    | .saveVersion _ => do
      let o ← obs s
      let os ← observeSaves obs s es
      some (o :: os)
    | _ => observeSaves obs s es

/-- What `RootHash` returns. -/
def rootHashOf (s : HTree C × Mem) : Option Bytes := (s.1.rootHash sha256 s.2).map Prod.fst

/-- The hash over the whole tree, computed without any cached hash. -/
def scratchHashOf (s : HTree C × Mem) : Option Bytes := (s.1.load s.2).map (Tree.rootHash sha256)

/-- The root hashes after each saved version of a sequence of changes. -/
def valueHashes (t : Tree) : List Change → List Bytes
  | [] => []
  | .apply cs :: rest => valueHashes (t.applyChangeSet cs) rest
  | .save :: rest =>
    (t.saveVersion.getD t).rootHash sha256 :: valueHashes (t.saveVersion.getD t) rest

theorem valueStep_change (t : Tree) (e : Event) :
    (valueStep sha256 t e).1 = match e.change with
      | some c => c.run t
      | none => t := by
  cases e with
  | set key value => simp [valueStep, Event.change, Change.run, applyChangeSet, applyPair]
  | remove key => simp [valueStep, Event.change, Change.run, applyChangeSet, applyPair]
  | saveVersion =>
    simp only [valueStep, Event.change, Change.run]
    rcases t.saveVersion with _ | t' <;> rfl
  | _ => rfl

variable {K sha256}

/-- An observation that depends on the tree value only is made on the changes only. -/
theorem observeSaves_eq {obs : HTree C × Mem → Option Bytes}
    (hobs : ∀ s t, Simulates K sha256 s t → obs s = some (t.rootHash sha256))
    (es : List Event) {s : HTree C × Mem} {t : Tree} (h : Simulates K sha256 s t) :
    observeSaves K sha256 obs s es = some (valueHashes sha256 t (es.filterMap Event.change)) := by
  induction es generalizing s t with
  | nil => rfl
  | cons e es ih =>
    obtain ⟨s', he, h'⟩ := step_refines K sha256 s t e h
    rw [valueStep_change] at h'
    have hrest := ih h'
    cases e <;>
      simp only [observeSaves, he, Option.bind_eq_bind, Option.bind_some, List.filterMap_cons,
        Event.change, valueHashes] at h' hrest ⊢ <;>
      first
        | exact hrest
        | simp only [hobs s' _ h', hrest, Option.bind_some, Change.run]

theorem rootHashOf_eq (s : HTree C × Mem) (t : Tree) (h : Simulates K sha256 s t) :
    rootHashOf sha256 s = some (t.rootHash sha256) := by
  obtain ⟨L, hs⟩ := h
  obtain ⟨m', e, -⟩ := hs.rootHash
  simp [rootHashOf, e]

theorem scratchHashOf_eq (s : HTree C × Mem) (t : Tree) (h : Simulates K sha256 s t) :
    scratchHashOf sha256 s = some (t.rootHash sha256) := by
  obtain ⟨L, hs⟩ := h
  simp [scratchHashOf, hs.load]

/-- Two runs from an empty tree at one version that make the same changes have the same
root hash after every saved version, and it is the hash recomputed from scratch. -/
theorem rootHash_independent_of_representation {C C' : Type} (K : Cache C) (K' : Cache C')
    (sha256 : Bytes → Bytes) (version : ℕ) (cacheSize cacheSize' : ℤ) (m m' : Mem)
    (es es' : List Event) (h : es.filterMap Event.change = es'.filterMap Event.change) :
    ∃ hashes,
      observeSaves K sha256 (rootHashOf sha256) (HTree.newEmptyTree K version cacheSize, m) es =
        some hashes ∧
      observeSaves K' sha256 (rootHashOf sha256) (HTree.newEmptyTree K' version cacheSize', m') es' =
        some hashes ∧
      observeSaves K sha256 (scratchHashOf sha256) (HTree.newEmptyTree K version cacheSize, m) es =
        some hashes := by
  have init : Simulates K sha256 (HTree.newEmptyTree K version cacheSize, m)
      (Tree.newEmptyTree version) := ⟨[], .newEmptyTree m version cacheSize⟩
  have init' : Simulates K' sha256 (HTree.newEmptyTree K' version cacheSize', m')
      (Tree.newEmptyTree version) := ⟨[], .newEmptyTree m' version cacheSize'⟩
  exact ⟨_, observeSaves_eq rootHashOf_eq es init, h ▸ observeSaves_eq rootHashOf_eq es' init',
    observeSaves_eq scratchHashOf_eq es init⟩

/-- A run that hashes, copies and reloads on the way, against one that does not. -/
theorem rootHash_independent_of_noise :
    let sha256 : Bytes → Bytes := fun bytes => bytes
    ∃ hashes,
      observeSaves lruCache sha256 (rootHashOf sha256) (HTree.newEmptyTree lruCache 0 2, [])
        [.set [1] none, .rootHash, .set [2] (some [7]), .copy 0 true, .saveVersion true, .reload 1,
          .remove [1], .saveVersion false] = some hashes ∧
      observeSaves lruCache sha256 (rootHashOf sha256) (HTree.newEmptyTree lruCache 0 0, [])
        [.set [1] none, .set [2] (some [7]), .saveVersion false, .remove [1], .saveVersion false] =
        some hashes ∧
      observeSaves lruCache sha256 (scratchHashOf sha256) (HTree.newEmptyTree lruCache 0 2, [])
        [.set [1] none, .rootHash, .set [2] (some [7]), .copy 0 true, .saveVersion true, .reload 1,
          .remove [1], .saveVersion false] = some hashes :=
  rootHash_independent_of_representation lruCache lruCache (fun bytes => bytes) 0 2 0 [] [] _ _ rfl

end IavlStore.Heap
