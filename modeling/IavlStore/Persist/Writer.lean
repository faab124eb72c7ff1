import IavlStore.Persist.Layout

/-! Writing a snapshot. The writer visits the tree in post-order and appends one record
for each leaf and each branch, counting both; a branch records the number of trees that
were pending when its subtree began. In closed form the records of a subtree depend on
the counters at its start only. -/

namespace IavlStore.Persist

open IavlStore.Base.Encoding IavlStore.Tree

structure SnapshotWriter where
  nodes : Bytes
  leaves : Bytes
  kvs : Bytes
  branchCounter : ℕ
  leafCounter : ℕ
  kvsOffset : ℕ

def newSnapshotWriter : SnapshotWriter := ⟨[], [], [], 0, 0, 0⟩

/-- A pair in the kvs file: both lengths and both strings. -/
def pairBytes (key value : Bytes) : Bytes :=
  putLE 4 key.length ++ key ++ putLE 4 value.length ++ value

def leafRecord (version keyLen keyOffset : ℕ) (hash : Bytes) : Bytes :=
  putLE 8 version ++ putLE 4 keyLen ++ putLE 8 keyOffset ++ hash

/-- Two bytes after the number of pending trees are padding. -/
def branchRecord (height preTrees version size keyLeaf : ℕ) (hash : Bytes) : Bytes :=
  putLE 1 height ++ putLE 1 preTrees ++ [0, 0] ++ putLE 8 version ++ putLE 4 size ++
    putLE 4 keyLeaf ++ hash

namespace SnapshotWriter

def writeKeyValue (key value : Bytes) (w : SnapshotWriter) : SnapshotWriter :=
  { w with
    kvs := w.kvs ++ pairBytes key value
    kvsOffset := u64 (w.kvsOffset + (4 + 4 + key.length + value.length)) }

def writeLeaf (version : ℕ) (key value hash : Bytes) (w : SnapshotWriter) : SnapshotWriter :=
  let record := leafRecord version key.length w.kvsOffset hash
  let w := w.writeKeyValue key value
  { w with leaves := w.leaves ++ record, leafCounter := u32 (w.leafCounter + 1) }

def writeBranch (version size height preTrees keyLeaf : ℕ) (hash : Bytes) (w : SnapshotWriter) :
    SnapshotWriter :=
  { w with
    nodes := w.nodes ++ branchRecord height preTrees version size keyLeaf hash
    branchCounter := u32 (w.branchCounter + 1) }

def writeRecursive : StoredNode → SnapshotWriter → SnapshotWriter
  | .leaf v k x hash, w => w.writeLeaf v k x hash
  | .branch h s v hash l r, w =>
    -- the number of pending trees before this one
    let preTrees := u32 ((w.leafCounter : ℤ) - w.branchCounter) % 2 ^ 8
    let w := writeRecursive l w
    let keyLeaf := w.leafCounter
    let w := writeRecursive r w
    w.writeBranch v s h preTrees keyLeaf hash

end SnapshotWriter

def metadataBytes (version : ℕ) : Bytes :=
  putLE 4 snapshotFileMagic ++ putLE 4 snapshotFormat ++ putLE 8 version

/-- No file is larger than the largest file offset. -/
def maxFileSize : ℕ := 2 ^ 63

/-- The files of a snapshot; `none` when one of them gets too large. Without leaves
nothing but the metadata is written. -/
def writeSnapshot (version : ℕ) (root : Option StoredNode) : Option Files :=
  let w := match root with
    | none => newSnapshotWriter
    | some p => newSnapshotWriter.writeRecursive p
  if w.leafCounter = 0 then some ⟨[], [], [], metadataBytes version⟩
  else if w.nodes.length < maxFileSize ∧ w.leaves.length < maxFileSize ∧ w.kvs.length < maxFileSize
    then some ⟨w.nodes, w.leaves, w.kvs, metadataBytes version⟩
  else none

/-! ### Closed form -/

/-- The number of leaves. -/
def count : StoredNode → ℕ
  | .leaf .. => 1
  | .branch _ _ _ _ l r => count l + count r

def kvsOf : StoredNode → Bytes
  | .leaf _ k x _ => pairBytes k x
  | .branch _ _ _ _ l r => kvsOf l ++ kvsOf r

/-- The leaf records of a subtree whose pairs begin at an offset. -/
def leavesOf (offset : ℕ) : StoredNode → List Bytes
  | .leaf v k _ hash => [leafRecord v k.length offset hash]
  | .branch _ _ _ _ l r => leavesOf offset l ++ leavesOf (offset + (kvsOf l).length) r

/-- The branch records of a subtree begun after `B` branches and `L` leaves. -/
def nodesOf (B L : ℕ) : StoredNode → List Bytes
  | .leaf .. => []
  | .branch h s v hash l r =>
    nodesOf B L l ++ nodesOf (B + (count l - 1)) (L + count l) r ++
      [branchRecord h (L - B) v s (L + count l) hash]

/-- The files of a non-empty tree. -/
def filesOf (version : ℕ) (p : StoredNode) : Files :=
  ⟨(nodesOf 0 0 p).flatten, (leavesOf 0 p).flatten, kvsOf p, metadataBytes version⟩

theorem count_pos (p : StoredNode) : 0 < count p := by
  induction p with
  | leaf => exact Nat.one_pos
  | branch h s v hash l r ihl _ => rw [count]; omega

theorem length_leavesOf (offset : ℕ) (p : StoredNode) : (leavesOf offset p).length = count p := by
  induction p generalizing offset with
  | leaf => rfl
  | branch h s v hash l r ihl ihr => simp [leavesOf, count, ihl, ihr]

theorem length_nodesOf (B L : ℕ) (p : StoredNode) : (nodesOf B L p).length = count p - 1 := by
  induction p generalizing B L with
  | leaf => rfl
  | branch h s v hash l r ihl ihr =>
    have hl := count_pos l
    have hr := count_pos r
    simp only [nodesOf, count, List.length_append, ihl, ihr, List.length_singleton]
    omega

theorem putLE_one_mod (n : ℕ) : putLE 1 (n % 2 ^ 8) = putLE 1 n := by
  simp only [putLE, List.cons.injEq, and_true]
  apply UInt8.toNat_inj.mp
  simp

theorem writeRecursive_eq (p : StoredNode) {w : SnapshotWriter}
    (hL : w.leafCounter + count p < 2 ^ 32) (hBL : w.branchCounter ≤ w.leafCounter)
    (hk : w.kvsOffset + (kvsOf p).length < 2 ^ 64) :
    w.writeRecursive p =
      { nodes := w.nodes ++ (nodesOf w.branchCounter w.leafCounter p).flatten
        leaves := w.leaves ++ (leavesOf w.kvsOffset p).flatten
        kvs := w.kvs ++ kvsOf p
        branchCounter := w.branchCounter + (count p - 1)
        leafCounter := w.leafCounter + count p
        kvsOffset := w.kvsOffset + (kvsOf p).length } := by
  induction p generalizing w with
  | leaf v k x hash =>
    simp only [count] at hL
    simp only [kvsOf, pairBytes, List.length_append, length_putLE] at hk
    have h1 : u32 ((w.leafCounter : ℤ) + 1) = w.leafCounter + 1 := by simp only [u32]; omega
    have h2 : u64 (w.kvsOffset + (4 + 4 + k.length + x.length)) =
        w.kvsOffset + (pairBytes k x).length := by
      rw [u64, Nat.mod_eq_of_lt (by omega)]
      simp only [pairBytes, List.length_append, length_putLE]
      omega
    simp [SnapshotWriter.writeRecursive, SnapshotWriter.writeLeaf, SnapshotWriter.writeKeyValue, count,
      kvsOf, leavesOf, nodesOf, h1, h2]
  | branch h s v hash l r ihl ihr =>
    have hl := count_pos l
    have hr := count_pos r
    simp only [count] at hL
    simp only [kvsOf, List.length_append] at hk
    have hpre : putLE 1 (u32 ((w.leafCounter : ℤ) - w.branchCounter) % 2 ^ 8) =
        putLE 1 (w.leafCounter - w.branchCounter) := by
      rw [putLE_one_mod]
      congr 1
      simp only [u32]
      omega
    have hb : u32 (((w.branchCounter + (count l - 1 + (count r - 1)) : ℕ) : ℤ) + 1) =
        w.branchCounter + (count l + count r - 1) := by
      simp only [u32]; omega
    rw [SnapshotWriter.writeRecursive]
    simp only [ihl (w := w) (by omega) hBL (by omega)]
    rw [ihr (by simp only; omega) (by simp only; omega) (by simp only; omega)]
    simp only [SnapshotWriter.writeBranch, branchRecord, hpre, hb, nodesOf, leavesOf, kvsOf, count,
      List.flatten_append, List.append_assoc, List.length_append, List.flatten_cons, List.flatten_nil,
      List.append_nil, Nat.add_assoc]

/-! ### Reading records back -/

theorem length_leafRecord {v n o : ℕ} {hash : Bytes} (h : hash.length = sizeHash) :
    (leafRecord v n o hash).length = sizeLeaf := by
  simp [leafRecord, h, sizeHash, sizeLeaf]

theorem length_branchRecord {h p v s k : ℕ} {hash : Bytes} (hh : hash.length = sizeHash) :
    (branchRecord h p v s k hash).length = sizeNode := by
  simp [branchRecord, hh, sizeHash, sizeNode]

/-- A field is read back when the bytes before it are as many as its offset. -/
theorem readLE_field {data : Bytes} (pre rest : Bytes) (w n : ℕ) {d : ℕ}
    (hdata : data = pre ++ (putLE w n ++ rest)) (hd : pre.length = d) (hn : n < 2 ^ (8 * w)) :
    readLE ((data.drop d).take w) = n := by
  have hn' : n < 256 ^ w := by rwa [pow_mul] at hn
  rw [hdata, List.drop_left' hd, List.take_left' (length_putLE w n), readLE_putLE_of_lt hn']

theorem leafLayout_fields {v n o : ℕ} {hash : Bytes} (hv : v < 2 ^ 64) (hn : n < 2 ^ 32)
    (ho : o < 2 ^ 64) (hh : hash.length = sizeHash) :
    LeafLayout.version ⟨leafRecord v n o hash⟩ = v ∧
      LeafLayout.keyLength ⟨leafRecord v n o hash⟩ = n ∧
      LeafLayout.keyOffset ⟨leafRecord v n o hash⟩ = o ∧
      LeafLayout.hash ⟨leafRecord v n o hash⟩ = hash := by
  refine ⟨?_, ?_, ?_, ?_⟩
  · simpa only [LeafLayout.version, List.drop_zero] using
      readLE_field (d := 0) [] (putLE 4 n ++ (putLE 8 o ++ hash)) 8 v (by simp [leafRecord]) rfl hv
  · exact readLE_field (putLE 8 v) (putLE 8 o ++ hash) 4 n (by simp [leafRecord]) (by simp) hn
  · exact readLE_field (putLE 8 v ++ putLE 4 n) hash 8 o (by simp [leafRecord]) (by simp) ho
  · rw [LeafLayout.hash, leafRecord, List.drop_left' (by simp), List.take_of_length_le hh.le]

theorem nodeLayout_fields {h p v s k : ℕ} {hash : Bytes} (h1 : h < 2 ^ 8) (hp : p < 2 ^ 8)
    (hv : v < 2 ^ 64) (hs : s < 2 ^ 32) (hk : k < 2 ^ 32) (hh : hash.length = sizeHash) :
    NodeLayout.height ⟨branchRecord h p v s k hash⟩ = h ∧
      NodeLayout.preTrees ⟨branchRecord h p v s k hash⟩ = p ∧
      NodeLayout.version ⟨branchRecord h p v s k hash⟩ = v ∧
      NodeLayout.size ⟨branchRecord h p v s k hash⟩ = s ∧
      NodeLayout.keyLeaf ⟨branchRecord h p v s k hash⟩ = k ∧
      NodeLayout.hash ⟨branchRecord h p v s k hash⟩ = hash := by
  refine ⟨?_, ?_, ?_, ?_, ?_, ?_⟩
  · simpa only [NodeLayout.height, List.drop_zero] using
      readLE_field (d := 0) [] (putLE 1 p ++ ([0, 0] ++ (putLE 8 v ++ (putLE 4 s ++
        (putLE 4 k ++ hash))))) 1 h (by simp [branchRecord]) rfl h1
  · exact readLE_field (putLE 1 h) ([0, 0] ++ (putLE 8 v ++ (putLE 4 s ++ (putLE 4 k ++ hash))))
      1 p (by simp [branchRecord]) (by simp) hp
  · exact readLE_field (putLE 1 h ++ putLE 1 p ++ [0, 0]) (putLE 4 s ++ (putLE 4 k ++ hash))
      8 v (by simp [branchRecord]) (by simp) hv
  · exact readLE_field (putLE 1 h ++ putLE 1 p ++ [0, 0] ++ putLE 8 v) (putLE 4 k ++ hash)
      4 s (by simp [branchRecord]) (by simp) hs
  · exact readLE_field (putLE 1 h ++ putLE 1 p ++ [0, 0] ++ putLE 8 v ++ putLE 4 s) hash
      4 k (by simp [branchRecord]) (by simp) hk
  · rw [NodeLayout.hash, branchRecord, List.drop_left' (by simp), List.take_of_length_le hh.le]

end IavlStore.Persist
