import IavlStore.Base.Ics23
import IavlStore.Tree.Values

/-! Existence proofs of a tree as a value. The descent to a key leaves the hash of the
other child behind at every branch; written as operations from the leaf up, these
rebuild the preimages of the node hashes, so a proof evaluates to the hash of the root.
Consecutive leaves have neighbouring paths. -/

namespace IavlStore.Tree

open IavlStore.Base.Encoding IavlStore.Base.Ics23 IavlStore.Base.SortedPairs

/-- A branch on the way to a leaf, with the hash of the child that is not taken. -/
structure ProofInnerNode where
  height : ℤ
  size : ℕ
  version : ℤ
  left : Bytes
  right : Bytes
  deriving DecidableEq

def convertVarIntToBytes (orig : ℤ) : Bytes := putVarint orig

/-- The numbers every operation starts with. -/
def opHeader (height : ℤ) (size : ℕ) (version : ℤ) : Bytes :=
  convertVarIntToBytes height ++ convertVarIntToBytes size ++ convertVarIntToBytes version

def convertLeafOp (version : ℤ) : LeafOp :=
  ⟨.sha256, .noHash, .sha256, .varProto, opHeader 0 1 version⟩

/-- The length of a digest, written before each child. -/
def lengthByte : UInt8 := 0x20

def convertInnerOp (node : ProofInnerNode) : InnerOp :=
  let header := opHeader node.height node.size node.version
  if 0 < node.left.length then
    ⟨.sha256, header ++ [lengthByte] ++ node.left ++ [lengthByte], []⟩
  else ⟨.sha256, header ++ [lengthByte], [lengthByte] ++ node.right⟩

theorem convertInnerOp_left (h : ℤ) (s : ℕ) (v : ℤ) (right : Bytes) :
    convertInnerOp ⟨h, s, v, [], right⟩ =
      ⟨.sha256, opHeader h s v ++ [lengthByte], lengthByte :: right⟩ := rfl

theorem convertInnerOp_right (h : ℤ) (s : ℕ) (v : ℤ) {left : Bytes} (hl : 0 < left.length)
    (right : Bytes) : convertInnerOp ⟨h, s, v, left, right⟩ =
      ⟨.sha256, opHeader h s v ++ [lengthByte] ++ left ++ [lengthByte], []⟩ :=
  if_pos hl

@[simp] theorem hash_convertInnerOp (node : ProofInnerNode) : (convertInnerOp node).hash = .sha256 := by
  unfold convertInnerOp
  split_ifs <;> rfl

/-- The path runs from the root to the leaf, the operations from the leaf to the root. -/
def convertInnerOps (path : List ProofInnerNode) : List InnerOp := path.reverse.map convertInnerOp

@[simp] theorem convertInnerOps_cons (node : ProofInnerNode) (path : List ProofInnerNode) :
    convertInnerOps (node :: path) = convertInnerOps path ++ [convertInnerOp node] := by
  simp [convertInnerOps]

namespace Node

variable (sha256 : Bytes → Bytes)

/-- The branches passed on the descent to a key. -/
def pathTo (key : Bytes) : Node Bytes Bytes → List ProofInnerNode
  | leaf _ _ _ => []
  | branch h s v k l r =>
    if key < k then ⟨int8 h, s, int64 v, [], r.hashNode sha256⟩ :: l.pathTo key
    else ⟨int8 h, s, int64 v, l.hashNode sha256, []⟩ :: r.pathTo key

/-- The version, key and value of the leaf the descent ends at. -/
def leafFor (key : Bytes) : Node Bytes Bytes → ℕ × Bytes × Bytes
  | leaf v k x => (v, k, x)
  | branch _ _ _ k l r => if key < k then l.leafFor key else r.leafFor key

def existenceProof (key : Bytes) (t : Node Bytes Bytes) : ExistenceProof :=
  let found := t.leafFor key
  ⟨found.2.1, found.2.2, convertLeafOp (int64 found.1), convertInnerOps (t.pathTo sha256 key)⟩

/-- The descent finds the key exactly when the tree holds it, with its value. -/
theorem lookupPair_eq_leafFor (key : Bytes) {t : Node Bytes Bytes} (ho : t.Ordered) :
    lookupPair key t.toList =
      if (t.leafFor key).2.1 = key then some (t.leafFor key).2.2 else none := by
  induction t with
  | leaf v k x =>
    rw [toList, lookupPair_cons, lookupPair_nil, leafFor]
    by_cases hk : key = k
    · rw [if_pos hk, if_pos hk.symm]
    · rw [if_neg hk, if_neg (Ne.symm hk)]
  | branch h s v k l r ihl ihr =>
    have ha := ho.atLeast
    obtain ⟨hb, -, hol, hor⟩ := ho
    rw [toList, leafFor]
    by_cases hk : key < k
    · rw [if_pos hk, lookupPair_append_left fun p hp => (hk.trans_le (ha p hp)).ne', ihl hol]
    · rw [if_neg hk, lookupPair_append_right fun p hp => ((hb p hp).trans_le (not_lt.mp hk)).ne,
        ihr hor]

/-! ### Heights -/

/-- The leaves of a balanced tree double every two levels. -/
theorem Balanced.two_pow_le {t : Node Bytes Bytes} (h : t.Balanced) :
    2 ^ (t.height / 2) ≤ t.size := by
  induction t with
  | leaf => simp [size]
  | branch ht s v k l r ihl ihr =>
    obtain ⟨rfl, rfl, h1, h2, hl, hr⟩ := h
    have hleft : 2 ^ (min l.height r.height / 2) ≤ l.size :=
      (Nat.pow_le_pow_right (by omega) (by omega)).trans (ihl hl)
    have hright : 2 ^ (min l.height r.height / 2) ≤ r.size :=
      (Nat.pow_le_pow_right (by omega) (by omega)).trans (ihr hr)
    calc 2 ^ ((max l.height r.height + 1) / 2)
        ≤ 2 ^ (min l.height r.height / 2 + 1) := Nat.pow_le_pow_right (by omega) (by omega)
      _ = 2 ^ (min l.height r.height / 2) + 2 ^ (min l.height r.height / 2) := by ring
      _ ≤ l.size + r.size := by omega

/-- A tree whose size is a signed 64-bit number has a height that is a signed byte. -/
theorem Balanced.height_lt {t : Node Bytes Bytes} (h : t.Balanced) (hs : t.size < 2 ^ 63) :
    t.height < 128 := by
  by_contra hc
  have hhalf : 63 ≤ t.height / 2 := by omega
  exact absurd hs (not_lt.mpr ((Nat.pow_le_pow_right two_pos hhalf).trans h.two_pow_le))

/-! ### Evaluation -/

theorem digest_leaf (v : ℕ) (k x : Bytes) :
    (convertLeafOp (int64 v)).digest sha256 k x = (leaf v k x).hashNode sha256 := by
  simp [convertLeafOp, LeafOp.digest, prepareLeafData, doLength, doHash, hashNode, leafHashBytes,
    hashHeader, encodeBytes, opHeader, convertVarIntToBytes]

variable {sha256} (hlen : ∀ bytes, (sha256 bytes).length = 32)
include hlen

theorem encodeBytes_digest (bytes : Bytes) :
    encodeBytes (sha256 bytes) = lengthByte :: sha256 bytes := by
  rw [encodeBytes, hlen]
  rfl

theorem encodeBytes_hashNode (t : Node Bytes Bytes) :
    encodeBytes (t.hashNode sha256) = lengthByte :: t.hashNode sha256 := by
  cases t <;> exact encodeBytes_digest hlen _

/-- The operation of a left child hashes the preimage of the branch. -/
theorem digest_left {h s v : ℕ} {k : Bytes} {l r : Node Bytes Bytes} (hh : h < 128) :
    (convertInnerOp ⟨int8 h, s, int64 v, [], r.hashNode sha256⟩).digest sha256 (l.hashNode sha256) =
      (branch h s v k l r).hashNode sha256 := by
  simp [convertInnerOp_left, InnerOp.digest, doHash, hashNode, branchHashBytes, hashHeader,
    encodeBytes_hashNode hlen, opHeader, convertVarIntToBytes, int8_of_lt hh]

theorem digest_right {h s v : ℕ} {k : Bytes} {l r : Node Bytes Bytes} (hh : h < 128) :
    (convertInnerOp ⟨int8 h, s, int64 v, l.hashNode sha256, []⟩).digest sha256 (r.hashNode sha256) =
      (branch h s v k l r).hashNode sha256 := by
  have hl : 0 < (l.hashNode sha256).length := by simp [hashNode_length hlen]
  simp [convertInnerOp_right _ _ _ hl, InnerOp.digest, doHash, hashNode, branchHashBytes, hashHeader,
    encodeBytes_hashNode hlen, opHeader, convertVarIntToBytes, int8_of_lt hh]

/-- Any descent leads back to the hash of the root. -/
theorem evaluate_existenceProof (key : Bytes) {t : Node Bytes Bytes} (hb : t.Balanced)
    (hs : t.size < 2 ^ 63) : (t.existenceProof sha256 key).evaluate sha256 = t.hashNode sha256 := by
  induction t with
  | leaf v k x => exact digest_leaf sha256 v k x
  | branch h s v k l r ihl ihr =>
    have hh := hb.height_lt hs
    obtain ⟨-, rfl, -, -, hbl, hbr⟩ := hb
    simp only [size_branch] at hs
    have hl := ihl hbl (by omega)
    have hr := ihr hbr (by omega)
    simp only [existenceProof, ExistenceProof.evaluate, pathTo, leafFor] at hl hr ⊢
    split_ifs
    · rw [convertInnerOps_cons, List.foldl_append, hl]
      exact digest_left hlen hh
    · rw [convertInnerOps_cons, List.foldl_append, hr]
      exact digest_right hlen hh

/-- A light client refuses a proof of the tree only for an empty key or value. -/
theorem calculate_existenceProof (key : Bytes) (t : Node Bytes Bytes)
    (hk : (t.existenceProof sha256 key).key ≠ []) (hv : (t.existenceProof sha256 key).value ≠ []) :
    (t.existenceProof sha256 key).calculate sha256 =
      some ((t.existenceProof sha256 key).evaluate sha256) := by
  have hne (bytes : Bytes) : sha256 bytes ≠ [] := fun h => by simpa [h] using hlen bytes
  refine calculate_eq_evaluate (hne _) (fun op hop child => ?_) hk hv
  obtain ⟨node, -, rfl⟩ := List.mem_map.mp hop
  rw [InnerOp.digest, hash_convertInnerOp]
  exact hne _

end Node

end IavlStore.Tree
