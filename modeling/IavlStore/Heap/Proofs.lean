import IavlStore.Base.ByteOrder
import IavlStore.Heap.Iterator
import IavlStore.Tree.Neighbours

/-! Commitment proofs of a tree on the heap. The descent to a key asks for the hash of
every child it leaves aside, which may cache hashes on the way, and otherwise computes
the proofs of the tree as a value. A non-existence proof looks its neighbours up by the
rank of the key, which is a 32-bit number. -/

namespace IavlStore.Heap

open IavlStore.Base.ByteOrder IavlStore.Base.Encoding IavlStore.Base.Ics23
open IavlStore.Base.SortedPairs IavlStore.Tree Rep

def errKeyNotExist : String := "key does not exist"

def errKeyInState : String := "cannot create NonExistanceProof when Key in State"

/-- The branches passed, the leaf at the end, and the error when it has another key. -/
def pathToLeaf (sha256 : Bytes → Bytes) (key : Bytes) :
    ℕ → Ref → Mem → Option ((List ProofInnerNode × Ref × Option String) × Mem)
  | 0, _, _ => none
  | fuel + 1, node, m => do
    let n ← node.view m
    if n.height = 0 then
      some (([], node, if n.key = key then none else some errKeyNotExist), m)
    else if key < n.key then
      -- left side
      let (right, m) ← hash sha256 fuel (← n.right) m
      let ((path, last, err), m) ← pathToLeaf sha256 key fuel (← n.left) m
      some ((⟨int8 n.height, n.size, int64 n.version, [], right⟩ :: path, last, err), m)
    else
      -- right side
      let (left, m) ← hash sha256 fuel (← n.left) m
      let ((path, last, err), m) ← pathToLeaf sha256 key fuel (← n.right) m
      some ((⟨int8 n.height, n.size, int64 n.version, left, []⟩ :: path, last, err), m)

/-- The key and the value of a leaf by its index, nil beyond the last one. A snapshot node
reads them off the leaves of its subtree. -/
def getByIndex : ℕ → Ref → UInt32 → Mem → Option (Option Bytes × Option Bytes)
  | 0, _, _, _ => none
  | _ + 1, .persisted p, index, _ =>
    let found := p.leaves[index.toNat]?
    some (found.map Prod.fst, found.map Prod.snd)
  | fuel + 1, .mem a, index, m => do
    let n ← m[a]?
    if n.height = 0 then
      if index = 0 then some (some n.key, n.value) else some (none, none)
    else
      let left ← n.left
      let leftSize := UInt32.ofNat (← left.view m).size
      if index < leftSize then getByIndex fuel left index m
      else getByIndex fuel (← n.right) (index - leftSize) m

namespace HTree

variable {C : Type} (sha256 : Bytes → Bytes)

def getByIndex (t : HTree C) (index : ℤ) (m : Mem) : Option (Option Bytes × Option Bytes) :=
  if 2 ^ 32 - 1 < index then some (none, none)
  else match t.root with
  | none => some (none, none)
  | some r => do
    Heap.getByIndex ((← r.view m).height + 1) r (UInt32.ofNat (index % 2 ^ 32).toNat) m

/-- The proof of the leaf the descent ends at, with the error if it has another key. The
root must not be nil. -/
def createExistenceProof (t : HTree C) (key : Bytes) (m : Mem) :
    Option ((ExistenceProof × Option String) × Mem) := do
  let root ← t.root
  let ((path, last, err), m) ← pathToLeaf sha256 key ((← root.view m).height + 1) root m
  let n ← last.view m
  some ((⟨n.key, n.value.getD [], convertLeafOp (int64 n.version), convertInnerOps path⟩, err), m)

def getMembershipProof (t : HTree C) (key : Bytes) (m : Mem) :
    Option (Except String ExistenceProof × Mem) := do
  let ((exist, err), m) ← t.createExistenceProof sha256 key m
  match err with
  | some err => some (.error err, m)
  | none => some (.ok exist, m)

/-- The part of a non-existence proof for a neighbour, if there is one. -/
def neighbourProof (t : HTree C) (key : Option Bytes) (m : Mem) :
    Option (Except String (Option ExistenceProof) × Mem) :=
  match key with
  | none => some (.ok none, m)
  | some key => do
    let (exist, m) ← t.getMembershipProof sha256 key m
    some (exist.map some, m)

/-- The key of the left neighbour; a nil key there is the empty one. -/
def leftKey (t : HTree C) (idx : ℤ) (m : Mem) : Option (Option Bytes) :=
  if 1 ≤ idx then do
    let (leftkey, _) ← t.getByIndex (idx - 1) m
    some (some (leftkey.getD []))
  else some none

def getNonMembershipProof (t : HTree C) (key : Bytes) (m : Mem) :
    Option (Except String NonExistenceProof × Mem) := do
  -- the index is one right of the left neighbour
  let (idx, val) ← t.getWithIndex key m
  if val.isSome then some (.error errKeyInState, m)
  else
    let (left, m) ← t.neighbourProof sha256 (← t.leftKey idx.toNat m) m
    match left with
    | .error err => some (.error err, m)
    | .ok left =>
      -- nil when nothing is right of the key
      let (rightkey, _) ← t.getByIndex idx.toNat m
      let (right, m) ← t.neighbourProof sha256 rightkey m
      match right with
      | .error err => some (.error err, m)
      | .ok right => some (.ok ⟨key, left, right⟩, m)

end HTree

/-! ### The heap computes the proofs of the tree -/

variable {sha256 : Bytes → Bytes} {m m' : Mem} {ref : Ref} {t : Node Bytes Bytes} {L : List ℕ}
  {fuel : ℕ}

theorem pathToLeaf_step (key : Bytes) (hrep : Rep sha256 m ref t L) (hb : t.Balanced)
    (hfuel : t.height < fuel) :
    ∃ m' leaf L', pathToLeaf sha256 key fuel ref m =
        some ((t.pathTo sha256 key, leaf,
          if (t.leafFor key).2.1 = key then none else some errKeyNotExist), m') ∧
      Rehashed sha256 m m' ∧
      Rep sha256 m' leaf (.leaf (t.leafFor key).1 (t.leafFor key).2.1 (t.leafFor key).2.2) L' := by
  induction t generalizing fuel m ref L with
  | leaf v k x =>
    obtain ⟨fuel, rfl⟩ : ∃ f, fuel = f + 1 := ⟨fuel - 1, by omega⟩
    have hself := hrep
    obtain ⟨n, hview, -, hheight, -, rfl, rfl, -, -⟩ := hrep.leaf_view
    refine ⟨m, ref, L, ?_, .refl m, hself⟩
    by_cases hk : n.key = key <;> simp [pathToLeaf, hview, hheight, Node.pathTo, Node.leafFor, hk]
  | branch h s v k tl tr ihl ihr =>
    obtain ⟨fuel, rfl⟩ : ∃ f, fuel = f + 1 := ⟨fuel - 1, by omega⟩
    obtain ⟨n, l, r, Ll, Lr, hview, -, rfl, rfl, rfl, rfl, hl, hr, repl, repr, -⟩ := hrep.branch_view
    obtain ⟨he, -, -, -, hbl, hbr⟩ := hb
    simp only [Node.height_branch] at hfuel
    have hpos : n.height ≠ 0 := by omega
    by_cases hk : key < n.key
    · obtain ⟨m₁, e₁, rh₁⟩ := hash_step repr hbr (show tr.height < fuel by omega)
      obtain ⟨m₂, leaf, L', e₂, rh₂, hleaf⟩ := ihl (rh₁.rep _ _ _ repl) hbl (show tl.height < fuel by omega)
      refine ⟨m₂, leaf, L', ?_, rh₁.trans rh₂, by simpa only [Node.leafFor, hk, ↓reduceIte] using hleaf⟩
      simp [pathToLeaf, hview, hpos, hk, hl, hr, e₁, e₂, Node.pathTo, Node.leafFor]
    · obtain ⟨m₁, e₁, rh₁⟩ := hash_step repl hbl (show tl.height < fuel by omega)
      obtain ⟨m₂, leaf, L', e₂, rh₂, hleaf⟩ := ihr (rh₁.rep _ _ _ repr) hbr (show tr.height < fuel by omega)
      refine ⟨m₂, leaf, L', ?_, rh₁.trans rh₂, by simpa only [Node.leafFor, hk, ↓reduceIte] using hleaf⟩
      simp [pathToLeaf, hview, hpos, hk, hl, hr, e₁, e₂, Node.pathTo, Node.leafFor]

/-- Below `2^32` leaves an index finds its leaf. -/
theorem getByIndex_eq (hrep : Rep sha256 m ref t L) (hb : t.Balanced) (hfuel : t.height < fuel)
    (hsize : t.size < 2 ^ 32) (index : UInt32) :
    getByIndex fuel ref index m =
      some (t.toList[index.toNat]?.map Prod.fst, t.toList[index.toNat]?.map Prod.snd) := by
  induction fuel generalizing ref t L index with
  | zero => omega
  | succ fuel ih =>
    cases hrep with
    | persisted p ok => rfl
    | leaf a n x cell height size value =>
      simp only [getByIndex, cell, Option.bind_eq_bind, Option.bind_some, height, ↓reduceIte,
        Node.toList, value]
      by_cases hi : index = 0
      · simp [hi]
      · have hpos : index.toNat ≠ 0 := fun h => hi (UInt32.toNat_inj.mp h)
        rw [if_neg hi, List.getElem?_eq_none (by simp; omega)]
        rfl
    | branch a n l r tl tr Ll Lr cell height left right ok repl repr =>
      obtain ⟨he, hs, -, -, hbl, hbr⟩ := hb
      simp only [Node.height_branch, Node.size_branch] at hfuel hsize
      obtain ⟨nl, hvl, -, hsl, -⟩ := repl.view_eq
      have hlsize : (UInt32.ofNat tl.size).toNat = tl.size := by
        rw [UInt32.toNat_ofNat', Nat.mod_eq_of_lt (by omega)]
      simp only [getByIndex, cell, Option.bind_eq_bind, Option.bind_some, height.ne', ↓reduceIte, left,
        right, hvl, hsl, Node.toList]
      by_cases hi : index < UInt32.ofNat tl.size
      · have hlt : index.toNat < tl.toList.length := by
          rw [← hbl.size_eq, ← hlsize]
          exact UInt32.lt_iff_toNat_lt.mp hi
        rw [if_pos hi, ih repl hbl (by omega) (by omega), List.getElem?_append_left hlt]
      · have hle : tl.toList.length ≤ index.toNat := by
          rw [← hbl.size_eq, ← hlsize]
          exact not_lt.mp fun h => hi (UInt32.lt_iff_toNat_lt.mpr h)
        have hsub : (index - UInt32.ofNat tl.size).toNat = index.toNat - tl.toList.length := by
          rw [UInt32.toNat_sub_of_le _ _ (UInt32.le_iff_toNat_le.mpr (by rw [hlsize, hbl.size_eq]; exact hle)),
            hlsize, hbl.size_eq]
        rw [if_neg hi, ih repr hbr (by omega) (by omega), List.getElem?_append_right hle, hsub]

/-! ### Membership -/

variable {C : Type}

/-- The proof of the tree, with the error when the key is absent. -/
theorem createExistenceProof_step (ht : HTree C) (hroot : ht.root = some ref)
    (hrep : Rep sha256 m ref t L) (hb : t.Balanced) (key : Bytes) :
    ∃ m', ht.createExistenceProof sha256 key m =
        some ((t.existenceProof sha256 key,
          if (t.leafFor key).2.1 = key then none else some errKeyNotExist), m') ∧
      Rehashed sha256 m m' := by
  obtain ⟨n, hview, hheight, -⟩ := hrep.view_eq
  obtain ⟨m', last, L', e, rh, hlast⟩ :=
    pathToLeaf_step key hrep hb (show t.height < n.height + 1 by omega)
  obtain ⟨n', hview', -, -, -, hv, hk, hx, -⟩ := hlast.leaf_view
  refine ⟨m', ?_, rh⟩
  simp [HTree.createExistenceProof, hroot, hview, e, hview', hv, hk, hx, Node.existenceProof]

theorem getMembershipProof_of_lookup (ht : HTree C) (hroot : ht.root = some ref)
    (hrep : Rep sha256 m ref t L) (hb : t.Balanced) (ho : t.Ordered) {key value : Bytes}
    (hk : lookupPair key t.toList = some value) :
    ∃ m', ht.getMembershipProof sha256 key m = some (.ok (t.existenceProof sha256 key), m') ∧
      Rehashed sha256 m m' := by
  obtain ⟨m', e, rh⟩ := createExistenceProof_step ht hroot hrep hb key
  rw [Node.lookupPair_eq_leafFor key ho] at hk
  split_ifs at hk with hf
  exact ⟨m', by simp [HTree.getMembershipProof, e, hf], rh⟩

/-- The hash of the root is the one the tree as a value has. -/
theorem rootHash_eq (ht : HTree C) (hroot : ht.root = some ref) (hrep : Rep sha256 m ref t L)
    (hb : t.Balanced) : (ht.rootHash sha256 m).map Prod.fst = some (t.hashNode sha256) := by
  obtain ⟨n, hview, hheight, -⟩ := hrep.view_eq
  obtain ⟨m', e, -⟩ := hash_step hrep hb (show t.height < n.height + 1 by omega)
  simp [HTree.rootHash, hroot, hview, e]

/-- An absent key is an error. A present key has a proof with its value, whose operations
evaluate to the root hash; a light client refuses only an empty key or value. -/
theorem membershipProof_exact (hlen : ∀ bytes, (sha256 bytes).length = 32) (ht : HTree C)
    (hroot : ht.root = some ref) (hrep : Rep sha256 m ref t L) (hb : t.Balanced) (ho : t.Ordered)
    (hs : t.size < 2 ^ 63) (key : Bytes) :
    (lookupPair key t.toList = none →
      ∃ m', ht.getMembershipProof sha256 key m = some (.error errKeyNotExist, m')) ∧
    ∀ value, lookupPair key t.toList = some value →
      ∃ proof m', ht.getMembershipProof sha256 key m = some (.ok proof, m') ∧
        proof.key = key ∧ proof.value = value ∧
        (ht.rootHash sha256 m).map Prod.fst = some (proof.evaluate sha256) ∧
        (key ≠ [] → value ≠ [] → proof.calculate sha256 = some (proof.evaluate sha256)) := by
  constructor
  · intro hk
    obtain ⟨m', e, -⟩ := createExistenceProof_step ht hroot hrep hb key
    rw [Node.lookupPair_eq_leafFor key ho] at hk
    split_ifs at hk with hf
    exact ⟨m', by simp [HTree.getMembershipProof, e, hf]⟩
  · intro value hk
    obtain ⟨m', e, -⟩ := getMembershipProof_of_lookup ht hroot hrep hb ho hk
    have hmem := (mem_iff_lookupPair ho.sorted key value).mpr hk
    obtain ⟨hkey, hval⟩ := Node.existenceProof_of_mem sha256 ho hmem
    refine ⟨_, m', e, hkey, hval, ?_, fun hk0 hv0 => ?_⟩
    · rw [rootHash_eq ht hroot hrep hb, Node.evaluate_existenceProof hlen key hb hs]
    · exact Node.calculate_existenceProof hlen key t (by rwa [hkey]) (by rwa [hval])

/-- A present and an absent key of the small tree. -/
theorem membershipProof_mixed :
    let ht : HTree Unit := ⟨4, 0, some (.mem 0), none⟩
    (∃ m', ht.getMembershipProof firstBytes [4] (mixedHeap firstBytes) =
      some (.error errKeyNotExist, m')) ∧
    ∃ proof m', ht.getMembershipProof firstBytes [2] (mixedHeap firstBytes) = some (.ok proof, m') ∧
      proof.key = [2] ∧ proof.value = [8] ∧
      (ht.rootHash firstBytes (mixedHeap firstBytes)).map Prod.fst = some (proof.evaluate firstBytes) ∧
      (([2] : Bytes) ≠ [] → ([8] : Bytes) ≠ [] →
        proof.calculate firstBytes = some (proof.evaluate firstBytes)) := by
  intro ht
  have h := membershipProof_exact length_firstBytes ht rfl (rep_mixedTree firstBytes)
    mixedTree_balanced mixedTree_ordered (by decide)
  exact ⟨(h [4]).1 (by decide), (h [2]).2 [8] (by decide)⟩

/-! ### Non-membership -/

section
variable (ht : HTree C) (hroot : ht.root = some ref) (hrep : Rep sha256 m ref t L) (hb : t.Balanced)
include hroot hrep hb

theorem getWithIndex_eq (ho : t.Ordered) (key : Bytes) :
    ht.getWithIndex key m =
      some (UInt32.ofNat (rank key t.toList), lookupPair key t.toList) := by
  obtain ⟨n, hview, hheight, -⟩ := hrep.view_eq
  simp [HTree.getWithIndex, hroot, hview,
    get_eq key hrep hb ho (show t.height < n.height + 1 by omega)]

theorem treeGetByIndex_eq (hsize : t.size < 2 ^ 32) {i : ℕ} (hi : i < 2 ^ 32) :
    ht.getByIndex i m = some (t.toList[i]?.map Prod.fst, t.toList[i]?.map Prod.snd) := by
  obtain ⟨n, hview, hheight, -⟩ := hrep.view_eq
  have hindex : ((i : ℤ) % 2 ^ 32).toNat = i := by omega
  have hget := getByIndex_eq hrep hb (show t.height < n.height + 1 by omega) hsize (UInt32.ofNat i)
  rw [UInt32.toNat_ofNat', Nat.mod_eq_of_lt hi] at hget
  rw [HTree.getByIndex, if_neg (by omega), hindex]
  simp only [hroot, hview, Option.bind_eq_bind, Option.bind_some, hget]

/-- The part for the leaf at an index. -/
theorem neighbourProof_step (ho : t.Ordered) (i : ℕ) :
    ∃ m', ht.neighbourProof sha256 (t.toList[i]?.map Prod.fst) m =
        some (.ok (t.toList[i]?.map fun p => t.existenceProof sha256 p.1), m') ∧
      Rehashed sha256 m m' := by
  rcases hp : t.toList[i]? with _ | p
  · exact ⟨m, rfl, .refl m⟩
  · have hmem := List.mem_of_getElem? hp
    obtain ⟨m', e, rh⟩ := getMembershipProof_of_lookup ht hroot hrep hb ho
      ((mem_iff_lookupPair ho.sorted p.1 p.2).mp hmem)
    exact ⟨m', by simp [HTree.neighbourProof, e, Except.map], rh⟩

theorem leftKey_eq (hsize : t.size < 2 ^ 32) {i : ℕ} (hi : i ≤ t.toList.length) :
    ht.leftKey i m = some (if 1 ≤ i then t.toList[i - 1]?.map Prod.fst else none) := by
  have hlen := hb.size_eq
  by_cases h1 : 1 ≤ i
  · have hcast : (i : ℤ) - 1 = ((i - 1 : ℕ) : ℤ) := by omega
    rw [HTree.leftKey, if_pos (by exact_mod_cast h1), if_pos h1, hcast,
      treeGetByIndex_eq ht hroot hrep hb hsize (by omega),
      List.getElem?_eq_getElem (show i - 1 < t.toList.length by omega)]
    rfl
  · rw [HTree.leftKey, if_neg (by exact_mod_cast h1), if_neg h1]

/-- Below `2^32` leaves the heap computes the proof of the tree. -/
theorem getNonMembershipProof_step (ho : t.Ordered) (hsize : t.size < 2 ^ 32) {key : Bytes}
    (hk : lookupPair key t.toList = none) :
    ∃ m', ht.getNonMembershipProof sha256 key m = some (.ok (t.nonExistenceProof sha256 key), m') := by
  have hrank : rank key t.toList ≤ t.toList.length := List.countP_le_length
  have hlen := hb.size_eq
  have hidx : (UInt32.ofNat (rank key t.toList)).toNat = rank key t.toList := by
    rw [UInt32.toNat_ofNat', Nat.mod_eq_of_lt (by omega)]
  obtain ⟨m₁, e₁, rh⟩ : ∃ m₁, ht.neighbourProof sha256
      (if 1 ≤ rank key t.toList then t.toList[rank key t.toList - 1]?.map Prod.fst else none) m =
        some (.ok (t.nonExistenceProof sha256 key).left, m₁) ∧ Rehashed sha256 m m₁ := by
    rw [Node.nonExistenceProof]
    split_ifs
    · exact neighbourProof_step ht hroot hrep hb ho _
    · exact ⟨m, rfl, .refl m⟩
  -- the hashes cached for the left part leave the tree as it was
  have hrep₁ := rh.rep _ _ _ hrep
  obtain ⟨m₂, e₂, -⟩ := neighbourProof_step ht hroot hrep₁ hb ho (rank key t.toList)
  refine ⟨m₂, ?_⟩
  simp only [HTree.getNonMembershipProof, getWithIndex_eq ht hroot hrep hb ho key, hk, hidx,
    Option.bind_eq_bind, Option.bind_some, Option.isSome_none, Bool.false_eq_true, ↓reduceIte,
    leftKey_eq ht hroot hrep hb hsize hrank, e₁,
    treeGetByIndex_eq ht hroot hrep₁ hb hsize (show rank key t.toList < 2 ^ 32 by omega), e₂]
  rfl

end

/-- The format of the inner nodes of these trees as light clients know it. -/
def iavlSpec : InnerSpec := ⟨33, 4, 12⟩

/-- A full tree of a depth with all keys below a common beginning. -/
def fullTree : ℕ → Bytes → Node Bytes Bytes
  | 0, key => .leaf 1 key []
  | depth + 1, key =>
    .join 1 (fullTree depth (key ++ [1])).minKey (fullTree depth (key ++ [0]))
      (fullTree depth (key ++ [1]))

theorem fullTree_balanced (depth : ℕ) (key : Bytes) :
    (fullTree depth key).Balanced ∧ (fullTree depth key).height = depth ∧
      (fullTree depth key).size = 2 ^ depth := by
  induction depth generalizing key with
  | zero => exact ⟨trivial, rfl, rfl⟩
  | succ depth ih =>
    obtain ⟨hb₀, hh₀, hs₀⟩ := ih (key ++ [0])
    obtain ⟨hb₁, hh₁, hs₁⟩ := ih (key ++ [1])
    refine ⟨Node.balanced_join hb₀ hb₁ (by omega) (by omega), ?_, ?_⟩
    · rw [fullTree, Node.height_join, hh₀, hh₁, max_self]
    · rw [fullTree, Node.size_join, hs₀, hs₁]
      ring

theorem fullTree_keys (depth : ℕ) (key : Bytes) :
    ∀ p ∈ (fullTree depth key).toList, ∃ rest, p.1 = key ++ rest := by
  induction depth generalizing key with
  | zero =>
    intro p hp
    rw [List.mem_singleton.mp hp]
    exact ⟨[], by simp⟩
  | succ depth ih =>
    intro p hp
    rcases List.mem_append.mp hp with hp | hp
    · obtain ⟨rest, hr⟩ := ih (key ++ [0]) p hp
      exact ⟨0 :: rest, by rw [hr, List.append_assoc]; rfl⟩
    · obtain ⟨rest, hr⟩ := ih (key ++ [1]) p hp
      exact ⟨1 :: rest, by rw [hr, List.append_assoc]; rfl⟩

theorem fullTree_ordered (depth : ℕ) (key : Bytes) : (fullTree depth key).Ordered := by
  induction depth generalizing key with
  | zero => trivial
  | succ depth ih =>
    refine (ih _).join (ih _) (fun p hp => ?_) rfl
    obtain ⟨x, hx⟩ := (fullTree depth (key ++ [1])).minKey_mem
    obtain ⟨rest, hr⟩ := fullTree_keys depth (key ++ [0]) p hp
    obtain ⟨rest', hr'⟩ := fullTree_keys depth (key ++ [1]) _ hx
    rw [hr, show (fullTree depth (key ++ [1])).minKey = _ from hr', List.append_assoc,
      List.append_assoc, bytes_append_lt_append]
    exact bytes_cons_lt_cons.mpr (.inl (by decide))

/-- A branch in memory over two snapshots of full trees. -/
def fullRoot (depth : ℕ) : MemNode :=
  let left := fullTree depth [0]
  let right := fullTree depth [1]
  ⟨max left.height right.height + 1, left.size + right.size, 1, right.minKey, none,
    some (.persisted (left.stored firstBytes)), some (.persisted (right.stored firstBytes)), none⟩

def fullHeap (depth : ℕ) : Mem := [fullRoot depth]

theorem rep_stored (m : Mem) (ho : t.Ordered) :
    Rep sha256 m (.persisted (t.stored sha256)) t [] := by
  have h := Rep.persisted (m := m) _ (Node.hashOk_stored sha256 ho)
  rwa [Node.toNode_stored sha256 ho] at h

theorem rep_fullHeap (depth : ℕ) :
    Rep firstBytes (fullHeap depth) (.mem 0) (fullTree (depth + 1) []) [0] := by
  refine .branch 0 (fullRoot depth) _ _ _ _ [] [] rfl (Nat.succ_pos _) rfl rfl (fun h hh => ?_)
    (rep_stored _ (fullTree_ordered depth [0])) (rep_stored _ (fullTree_ordered depth [1]))
  cases hh

/-- The leaf at index zero is one of the tree. -/
theorem getByIndex_fullHeap {depth : ℕ} (hd : depth < 32) (version cowVersion : ℕ) :
    ∃ first ∈ (fullTree (depth + 1) []).toList, ∃ value,
      (⟨version, cowVersion, some (.mem 0), none⟩ : HTree C).getByIndex 0 (fullHeap depth) =
        some (some first.1, value) := by
  have ho := fullTree_ordered depth [0]
  have hsize := (fullTree_balanced depth [0]).2.2
  rcases hl : (fullTree depth [0]).toList with _ | ⟨first, rest⟩
  · exact absurd hl (Node.toList_ne_nil _)
  have hmem : first ∈ (fullTree (depth + 1) []).toList :=
    List.mem_append_left _ (by rw [List.nil_append, hl]; exact List.mem_cons_self)
  refine ⟨first, hmem, some first.2, ?_⟩
  have hleft : Rep firstBytes (fullHeap depth) _ (fullTree depth [0]) [] := rep_stored _ ho
  obtain ⟨n, hview, -, hn, -⟩ := hleft.view_eq
  have hpos : (0 : UInt32) < UInt32.ofNat (2 ^ depth) := by
    rw [UInt32.lt_iff_toNat_lt, UInt32.toNat_ofNat',
      Nat.mod_eq_of_lt (Nat.pow_lt_pow_right one_lt_two hd)]
    exact Nat.two_pow_pos depth
  have hleaves : ((fullTree depth [0]).stored firstBytes).leaves[0]? = some first := by
    rw [StoredNode.leaves, Node.toNode_stored firstBytes ho, hl]
    rfl
  have hne : (fullRoot depth).height ≠ 0 := Nat.succ_ne_zero _
  have hroot : (fullHeap depth)[0]? = some (fullRoot depth) := rfl
  have hchild : (fullRoot depth).left = some (.persisted ((fullTree depth [0]).stored firstBytes)) := rfl
  have hget (fuel : ℕ) : Heap.getByIndex (fuel + 2) (.mem 0) 0 (fullHeap depth) =
      some (some first.1, some first.2) := by
    simp [Heap.getByIndex, hroot, hne, hchild, hview, hn, hsize, hpos, hleaves]
  simp only [HTree.getByIndex, Ref.view, hroot, Option.bind_eq_bind, Option.bind_some]
  exact hget _

/-- When the rank of an absent key is a multiple of `2^32`, the left part is missing. -/
theorem getNonMembershipProof_wraps (ht : HTree C) (hroot : ht.root = some ref)
    (hrep : Rep sha256 m ref t L) (hb : t.Balanced) (ho : t.Ordered) {key : Bytes}
    (hk : lookupPair key t.toList = none) (hrank : rank key t.toList % 2 ^ 32 = 0)
    {first : Bytes × Bytes} (hfirst : first ∈ t.toList) {value : Option Bytes}
    (hget : ht.getByIndex 0 m = some (some first.1, value)) :
    ∃ m', ht.getNonMembershipProof sha256 key m =
      some (.ok ⟨key, none, some (t.existenceProof sha256 first.1)⟩, m') := by
  have hidx : (UInt32.ofNat (rank key t.toList)).toNat = 0 := by
    rw [UInt32.toNat_ofNat', hrank]
  obtain ⟨m', e, -⟩ := getMembershipProof_of_lookup ht hroot hrep hb ho
    ((mem_iff_lookupPair ho.sorted first.1 first.2).mp hfirst)
  refine ⟨m', ?_⟩
  have hleft : ht.leftKey 0 m = some none := rfl
  simp [HTree.getNonMembershipProof, getWithIndex_eq ht hroot hrep hb ho key, hk, hidx, hleft,
    HTree.neighbourProof, hget, e, Except.map]

end IavlStore.Heap
