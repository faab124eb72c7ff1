import IavlStore.Tree.Neighbours

/-! Lookups of a tree as a value, and the proofs a query asks for. A lookup returns the value of a
key together with the number of smaller keys, which is a 32-bit number; the neighbours of an absent
key are looked up by that number. Below `2^32` leaves a present key has the proof of its leaf, and
an absent key the proof of the leaves around it. -/

namespace IavlStore.Tree

open IavlStore.Base.Encoding IavlStore.Base.Ics23 IavlStore.Base.SortedPairs

namespace Node

/-- The value of the key and the number of smaller keys. -/
def get (key : Bytes) : Node Bytes Bytes → Option Bytes × UInt32
  | leaf _ k x => if k < key then (none, 1) else if key < k then (none, 0) else (some x, 0)
  | branch _ s _ k l r =>
    if key < k then l.get key
    else
      let (value, index) := r.get key
      (value, index + UInt32.ofNat s - UInt32.ofNat r.size)

def getByIndex : Node Bytes Bytes → UInt32 → Option (Bytes × Bytes)
  | leaf _ k x, index => if index = 0 then some (k, x) else none
  | branch _ _ _ _ l r, index =>
    let leftSize := UInt32.ofNat l.size
    if index < leftSize then l.getByIndex index else r.getByIndex (index - leftSize)

theorem get_eq (key : Bytes) {t : Node Bytes Bytes} (hb : t.Balanced) (ho : t.Ordered) :
    t.get key = (lookupPair key t.toList, UInt32.ofNat (rank key t.toList)) := by
  induction t with
  | leaf v k x =>
    rw [get, toList, lookupPair_cons, lookupPair_nil]
    rcases lt_trichotomy k key with h | rfl | h
    · rw [if_pos h, if_neg h.ne']
      simp [rank, h]
    · simp [rank]
    · rw [if_neg h.asymm, if_pos h, if_neg h.ne]
      simp [rank, h.le]
  | branch ht s v k l r ihl ihr =>
    have ha := ho.atLeast
    obtain ⟨-, hs, -, -, hbl, hbr⟩ := hb
    obtain ⟨hbelow, -, hol, hor⟩ := ho
    rw [get, toList]
    by_cases hk : key < k
    · rw [if_pos hk, ihl hbl hol, lookupPair_append_left fun p hp => (hk.trans_le (ha p hp)).ne',
        rank_append_left fun p hp => hk.le.trans (ha p hp)]
    · have hkb : Below l.toList key := hbelow.mono (not_lt.mp hk)
      rw [if_neg hk, ihr hbr hor, lookupPair_append_right fun p hp => (hkb p hp).ne, rank_append_right hkb]
      simp only [hs, hbl.size_eq, Prod.mk.injEq, true_and]
      rw [UInt32.ofNat_add, UInt32.ofNat_add, ← UInt32.add_assoc, UInt32.add_sub_cancel, UInt32.add_comm]

/-- Below `2^32` leaves an index finds its leaf. -/
theorem getByIndex_eq {t : Node Bytes Bytes} (hb : t.Balanced) (hsize : t.size < 2 ^ 32) (index : UInt32) :
    t.getByIndex index = t.toList[index.toNat]? := by
  induction t generalizing index with
  | leaf v k x =>
    rw [getByIndex, toList]
    by_cases hi : index = 0
    · simp [hi]
    · have hpos : index.toNat ≠ 0 := fun h => hi (UInt32.toNat_inj.mp h)
      rw [if_neg hi, List.getElem?_eq_none (by simp; omega)]
  | branch ht s v k l r ihl ihr =>
    obtain ⟨-, hs, -, -, hbl, hbr⟩ := hb
    rw [size_branch] at hsize
    have hlsize : (UInt32.ofNat l.size).toNat = l.toList.length := by
      rw [UInt32.toNat_ofNat', Nat.mod_eq_of_lt (by omega), hbl.size_eq]
    simp only [getByIndex, toList]
    by_cases hi : index < UInt32.ofNat l.size
    · have hlt := UInt32.lt_iff_toNat_lt.mp hi
      rw [if_pos hi, ihl hbl (by omega), List.getElem?_append_left (by omega)]
    · have hle : UInt32.ofNat l.size ≤ index := UInt32.not_lt.mp hi
      have hle' := UInt32.le_iff_toNat_le.mp hle
      rw [if_neg hi, ihr hbr (by omega), List.getElem?_append_right (by omega), UInt32.toNat_sub_of_le _ _ hle,
        hlsize]

end Node

/-! ### Lookups -/

/-- What a proof is refused for. -/
inductive ProofError where
  | keyNotExist
  | keyInState
  deriving DecidableEq

inductive CommitmentProof where
  | exist (proof : ExistenceProof)
  | nonexist (proof : NonExistenceProof)
  deriving DecidableEq

def getWithIndex (t : Tree) (key : Bytes) : ℕ × Option Bytes :=
  match t.root with
  | none => (0, none)
  | some n => ((n.get key).2.toNat, (n.get key).1)

def getByIndex (t : Tree) (index : ℕ) : Option (Bytes × Bytes) :=
  if 2 ^ 32 - 1 < index then none else t.root.bind (·.getByIndex (UInt32.ofNat index))

def get (t : Tree) (key : Bytes) : Option Bytes := (t.getWithIndex key).2

section Proofs
variable (sha256 : Bytes → Bytes)

/-- The proof of the leaf the descent ends at. The root must not be nil. -/
def createExistenceProof (t : Tree) (key : Bytes) : Option (Except ProofError ExistenceProof) := do
  let root ← t.root
  if (root.leafFor key).2.1 = key then some (.ok (root.existenceProof sha256 key))
  else some (.error .keyNotExist)

def getMembershipProof (t : Tree) (key : Bytes) : Option (Except ProofError CommitmentProof) := do
  let exist ← t.createExistenceProof sha256 key
  some (exist.map .exist)

/-- The part of a non-existence proof for a neighbour, if there is one. -/
def neighbourProof (t : Tree) : Option Bytes → Option (Except ProofError (Option ExistenceProof))
  | none => some (.ok none)
  | some key => (t.createExistenceProof sha256 key).map (Except.map some)

/-- The key of the left neighbour; a nil key there is the empty one. -/
def leftKey (t : Tree) (idx : ℕ) : Option Bytes :=
  if 1 ≤ idx then some (((t.getByIndex (idx - 1)).map Prod.fst).getD []) else none

def getNonMembershipProof (t : Tree) (key : Bytes) : Option (Except ProofError CommitmentProof) := do
  let (idx, val) := t.getWithIndex key
  if val.isSome then some (.error .keyInState)
  else
    match ← t.neighbourProof sha256 (t.leftKey idx) with
    | .error err => some (.error err)
    | .ok left =>
      match ← t.neighbourProof sha256 ((t.getByIndex idx).map Prod.fst) with
      | .error err => some (.error err)
      | .ok right => some (.ok (.nonexist ⟨key, left, right⟩))

/-- An error is a panic. -/
def getProofFromTree (t : Tree) (key : Bytes) (hasValue : Bool) : Option CommitmentProof := do
  let proof ← if hasValue then t.getMembershipProof sha256 key else t.getNonMembershipProof sha256 key
  proof.toOption

end Proofs

/-! ### What they return -/

/-- A commitment proof that shows the value of a key in a tree, or that the key is absent. -/
inductive Shows (sha256 : Bytes → Bytes) (t : Tree) (key : Bytes) : Option Bytes → CommitmentProof → Prop where
  | exist (value : Bytes) (proof : ExistenceProof) (hkey : proof.key = key) (hvalue : proof.value = value)
    (hroot : proof.evaluate sha256 = t.rootHash sha256) : Shows sha256 t key (some value) (.exist proof)
  | nonexist (root : Node Bytes Bytes) (hroot : t.root = some root) (proof : NonExistenceProof)
    (hkey : proof.key = key) (brackets : Brackets sha256 root proof) : Shows sha256 t key none (.nonexist proof)
  /-- The empty tree has no leaf to show. -/
  | empty (hroot : t.root = none) : Shows sha256 t key none (.nonexist ⟨key, none, none⟩)

section Spec
variable {sha256 : Bytes → Bytes} {t : Tree} {key : Bytes}

theorem getWithIndex_eq (h : t.Inv) (hsize : t.pairs.length < 2 ^ 32) (key : Bytes) :
    t.getWithIndex key = (rank key t.pairs, lookupPair key t.pairs) := by
  rcases ht : t.root with _ | n
  · simp [getWithIndex, pairs, ht, rank]
  · have hn := h n ht
    simp only [pairs, ht] at hsize
    have hrank : rank key n.toList ≤ n.toList.length := List.countP_le_length
    simp only [getWithIndex, pairs, ht, n.get_eq key hn.balanced hn.ordered]
    rw [UInt32.toNat_ofNat', Nat.mod_eq_of_lt (by omega)]

theorem get_eq (h : t.Inv) (key : Bytes) : t.get key = lookupPair key t.pairs := by
  rcases ht : t.root with _ | n
  · simp [get, getWithIndex, pairs, ht]
  · simp only [get, getWithIndex, pairs, ht, n.get_eq key (h n ht).balanced (h n ht).ordered]

theorem getByIndex_eq (h : t.Inv) (hsize : t.pairs.length < 2 ^ 32) {i : ℕ} (hi : i < 2 ^ 32) :
    t.getByIndex i = t.pairs[i]? := by
  rw [getByIndex, if_neg (by omega)]
  rcases ht : t.root with _ | n
  · simp [pairs, ht]
  · simp only [pairs, ht] at hsize ⊢
    rw [Option.bind_some, n.getByIndex_eq (h n ht).balanced ((h n ht).balanced.size_eq.trans_lt hsize),
      UInt32.toNat_ofNat', Nat.mod_eq_of_lt hi]

/-- A present key has the proof of its leaf. -/
theorem createExistenceProof_eq {root : Node Bytes Bytes} (h : t.Inv) (ht : t.root = some root) {p : Bytes × Bytes}
    (hp : p ∈ root.toList) :
    t.createExistenceProof sha256 p.1 = some (.ok (root.existenceProof sha256 p.1)) := by
  have hfound := (Node.existenceProof_of_mem sha256 (h root ht).ordered hp).1
  rw [createExistenceProof, ht]
  exact if_pos hfound

theorem neighbourProof_eq {root : Node Bytes Bytes} (h : t.Inv) (ht : t.root = some root) (i : ℕ) :
    t.neighbourProof sha256 (root.toList[i]?.map Prod.fst) =
      some (.ok (root.toList[i]?.map fun p => root.existenceProof sha256 p.1)) := by
  rcases hp : root.toList[i]? with _ | p
  · rfl
  · simp only [Option.map_some, neighbourProof, createExistenceProof_eq h ht (List.mem_of_getElem? hp), Except.map]

theorem leftKey_eq {root : Node Bytes Bytes} (h : t.Inv) (ht : t.root = some root)
    (hsize : root.toList.length < 2 ^ 32) {i : ℕ} (hi : i ≤ root.toList.length) :
    t.leftKey i = if 1 ≤ i then root.toList[i - 1]?.map Prod.fst else none := by
  have hpairs : t.pairs = root.toList := by simp [pairs, ht]
  unfold leftKey
  split_ifs with h1
  · rw [getByIndex_eq h (hpairs ▸ hsize) (by omega), hpairs, List.getElem?_eq_getElem (by omega)]
    rfl
  · rfl

/-- The neighbours are those the rank of the key points at. -/
theorem getNonMembershipProof_eq {root : Node Bytes Bytes} (h : t.Inv) (ht : t.root = some root)
    (hsize : root.toList.length < 2 ^ 32) (hk : lookupPair key root.toList = none) :
    t.getNonMembershipProof sha256 key = some (.ok (.nonexist (root.nonExistenceProof sha256 key))) := by
  have hpairs : t.pairs = root.toList := by simp [pairs, ht]
  have hrank : rank key root.toList ≤ root.toList.length := List.countP_le_length
  have hleft : t.neighbourProof sha256 (t.leftKey (rank key root.toList)) =
      some (.ok (root.nonExistenceProof sha256 key).left) := by
    rw [leftKey_eq h ht hsize hrank, Node.nonExistenceProof]
    split_ifs
    · exact neighbourProof_eq h ht _
    · rfl
  rw [getNonMembershipProof, getWithIndex_eq h (hpairs ▸ hsize), hpairs, hk]
  simp only [Option.isSome_none, Bool.false_eq_true, if_false, hleft, Option.bind_eq_bind, Option.bind_some,
    getByIndex_eq h (hpairs ▸ hsize) (show rank key root.toList < 2 ^ 32 by omega), hpairs, neighbourProof_eq h ht]
  rfl

/-- A query for a proof does not panic, and the proof shows what the lookup returned. -/
theorem getProofFromTree_shows (hlen : ∀ bytes, (sha256 bytes).length = 32) (h : t.Inv)
    (hsize : t.pairs.length < 2 ^ 32) (key : Bytes) :
    ∃ proof, t.getProofFromTree sha256 key (t.get key).isSome = some proof ∧
      Shows sha256 t key (lookupPair key t.pairs) proof := by
  rw [get_eq h]
  rcases ht : t.root with _ | root
  · refine ⟨.nonexist ⟨key, none, none⟩, ?_, ?_⟩
    · simp [getProofFromTree, getNonMembershipProof, getWithIndex, neighbourProof, leftKey, getByIndex, pairs, ht,
        Except.toOption]
    · simpa [pairs, ht] using Shows.empty ht
  · have hn := h root ht
    have hpairs : t.pairs = root.toList := by simp [pairs, ht]
    have hsize' : root.size < 2 ^ 63 := by
      rw [hn.balanced.size_eq, ← hpairs]
      omega
    rw [hpairs] at hsize ⊢
    rcases hk : lookupPair key root.toList with _ | x
    · refine ⟨_, ?_, .nonexist root ht _ rfl (Node.brackets_nonExistenceProof hlen hn.balanced hn.ordered hsize' hk)⟩
      simp [getProofFromTree, getNonMembershipProof_eq h ht hsize hk, Except.toOption]
    · have hp : (key, x) ∈ root.toList := pair_mem_of_lookupPair hk
      obtain ⟨hkey, hvalue⟩ := Node.existenceProof_of_mem sha256 hn.ordered hp
      refine ⟨.exist (root.existenceProof sha256 key), ?_, .exist x _ hkey hvalue ?_⟩
      · have hproof : t.createExistenceProof sha256 key = some (.ok (root.existenceProof sha256 key)) :=
          createExistenceProof_eq h ht hp
        simp only [getProofFromTree, getMembershipProof, hproof, Option.isSome_some, if_true, Option.bind_eq_bind,
          Option.bind_some, Except.map, Except.toOption]
      · rw [Node.evaluate_existenceProof hlen key hn.balanced hsize']
        simp [rootHash, ht]

end Spec

end IavlStore.Tree
