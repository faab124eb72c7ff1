import IavlStore.Persist.Writer

/-! Subtrees in the files of a snapshot. Every subtree occupies consecutive records of the
three files; from the index of its root the child indices come out as the roots of the two
parts, so reading from there shows the subtree whole. The 8-bit field for pending trees is
wide enough because a tree with fewer than `2 ^ 32` leaves is lower than 64. -/

namespace IavlStore.Persist

open IavlStore.Base.Encoding IavlStore.Base.Search IavlStore.Base.Slices IavlStore.Tree

/-! ### Placed subtrees -/

variable {s : Snapshot}

/-- The records of a subtree begun after `B` branches, `L` leaves and `off` bytes. -/
structure Placed (s : Snapshot) (B L off : ℕ) (p : StoredNode) : Prop where
  nodes : Records sizeNode s.nodes B (nodesOf B L p)
  leaves : Records sizeLeaf s.leaves L (leavesOf off p)
  kvs : At s.kvs off (kvsOf p)

theorem Placed.left {B L off h sz v : ℕ} {hash : Bytes} {l r : StoredNode}
    (hp : Placed s B L off (.branch h sz v hash l r)) : Placed s B L off l := by
  obtain ⟨hn, hl, hk⟩ := hp
  rw [nodesOf, List.append_assoc] at hn
  exact ⟨(records_append hn).1, (records_append hl).1, (at_append.mp hk).1⟩

theorem Placed.right {B L off h sz v : ℕ} {hash : Bytes} {l r : StoredNode}
    (hp : Placed s B L off (.branch h sz v hash l r)) :
    Placed s (B + (count l - 1)) (L + count l) (off + (kvsOf l).length) r := by
  obtain ⟨hn, hl, hk⟩ := hp
  rw [nodesOf, List.append_assoc] at hn
  have hn' := (records_append (records_append hn).2).1
  have hl' := (records_append hl).2
  rw [length_nodesOf] at hn'
  rw [length_leavesOf] at hl'
  exact ⟨hn', hl', (at_append.mp hk).2⟩

/-- The record of the branch follows those of its children. -/
theorem Placed.node {B L off h sz v : ℕ} {hash : Bytes} {l r : StoredNode}
    (hp : Placed s B L off (.branch h sz v hash l r)) :
    s.node (B + count l + count r - 2) = some ⟨branchRecord h (L - B) v sz (L + count l) hash⟩ := by
  have hn := (records_append hp.nodes).2
  have hl := count_pos l
  have hr := count_pos r
  have hi : B + (nodesOf B L l ++ nodesOf (B + (count l - 1)) (L + count l) r).length =
      B + count l + count r - 2 := by
    simp only [List.length_append, length_nodesOf]
    omega
  rw [hi] at hn
  rw [Snapshot.node, hn.slice]
  rfl

theorem Placed.leaf {B L off v : ℕ} {k x hash : Bytes} (hp : Placed s B L off (.leaf v k x hash)) :
    s.leaf L = some ⟨leafRecord v k.length off hash⟩ := by
  rw [Snapshot.leaf, Records.slice hp.leaves]
  rfl

/-! ### Keys and values -/

/-- The four parts of a pair, each after the one before. -/
theorem slices_of_at {kvs k x : Bytes} {off : ℕ} (hat : At kvs off (pairBytes k x)) (hs : kvs.length < 2 ^ 63) :
    slice kvs off 4 = some (putLE 4 k.length) ∧ slice kvs (u64 (off + 4)) k.length = some k ∧
      slice kvs (u64 (u64 (off + 4) + k.length)) 4 = some (putLE 4 x.length) ∧
      slice kvs (u64 (u64 (u64 (off + 4) + k.length) + 4)) x.length = some x := by
  have hlt := hat.le
  simp only [pairBytes, List.length_append, length_putLE] at hlt
  simp only [pairBytes, at_append, List.length_append, length_putLE] at hat
  obtain ⟨⟨⟨hklen, hkey⟩, hlen⟩, hval⟩ := hat
  have e1 : u64 (off + 4) = off + 4 := Nat.mod_eq_of_lt (by omega)
  have e2 : u64 (off + 4 + k.length) = off + (4 + k.length) := by
    rw [Nat.add_assoc]; exact Nat.mod_eq_of_lt (by omega)
  have e3 : u64 (off + (4 + k.length) + 4) = off + (4 + k.length + 4) := by
    rw [Nat.add_assoc]; exact Nat.mod_eq_of_lt (by omega)
  rw [e1, e2, e3]
  exact ⟨by simpa [At] using hklen, hkey, by simpa [At] using hlen, hval⟩

theorem Placed.keyValue {B L off v : ℕ} {k x hash : Bytes} (hp : Placed s B L off (.leaf v k x hash))
    (hs : s.kvs.length < 2 ^ 63) (hk : k.length < 2 ^ 32) (hx : x.length < 2 ^ 32) :
    s.keyValue off = some (k, x) := by
  obtain ⟨hklen, hkey, hlen, hval⟩ := slices_of_at hp.kvs hs
  have hrk : readLE (putLE 4 k.length) = k.length := readLE_putLE_of_lt (by omega)
  have hrx : readLE (putLE 4 x.length) = x.length := readLE_putLE_of_lt (by omega)
  simp only [Snapshot.keyValue, Option.bind_eq_bind, Option.bind_some, hklen, hrk, hkey, hlen, hrx, hval]

theorem Placed.leafKeyValue {B L off v : ℕ} {k x hash : Bytes}
    (hp : Placed s B L off (.leaf v k x hash)) (hs : s.kvs.length < 2 ^ 63) (hv : v < 2 ^ 64)
    (hk : k.length < 2 ^ 32) (hx : x.length < 2 ^ 32) (hh : hash.length = sizeHash) :
    s.leafKey L = some k ∧ s.leafKeyValue L = some (k, x) := by
  have hoff := hp.kvs.le
  obtain ⟨-, hkey, hlen, hval⟩ := slices_of_at hp.kvs hs
  obtain ⟨-, hn, ho, -⟩ := leafLayout_fields hv hk (by omega : off < 2 ^ 64) hh
  have hr : readLE (putLE 4 x.length) = x.length := readLE_putLE_of_lt (by omega)
  constructor
  · simp only [Snapshot.leafKey, hp.leaf, Option.bind_eq_bind, Option.bind_some, hn, ho, hkey]
  · simp only [Snapshot.leafKeyValue, hp.leaf, Option.bind_eq_bind, Option.bind_some, hn, ho, hkey, hlen, hr, hval]

/-! ### The tree a node stands for -/

/-- The accessors of a persisted node return the fields of a node. -/
structure Fields (sha256 : Bytes → Bytes) (s : Snapshot) (n : PersistedNode)
    (t : Node Bytes Bytes) (value : Option Bytes) : Prop where
  height : n.height s = some t.height
  size : n.size s = some t.size
  version : n.version s = some t.version
  key : n.key s = some t.key
  value : n.value s = some value
  hash : n.hash s = some (t.hashNode sha256)

/-- Following `left` and `right` from a persisted node reaches exactly this tree. -/
def Shows (sha256 : Bytes → Bytes) (s : Snapshot) : PersistedNode → Node Bytes Bytes → Prop
  | n, .leaf v k x => n.isLeaf ∧ Fields sha256 s n (.leaf v k x) (some x)
  | n, .branch h sz v k l r =>
    ¬ n.isLeaf ∧ Fields sha256 s n (.branch h sz v k l r) none ∧
      (∃ m, n.left s = some m ∧ Shows sha256 s m l) ∧ ∃ m, n.right s = some m ∧ Shows sha256 s m r

/-- Keys and values of a tree that 32-bit lengths can hold. -/
def Fits (t : Node Bytes Bytes) : Prop :=
  ∀ p ∈ t.toList, p.1.length < 2 ^ 32 ∧ p.2.length < 2 ^ 32

theorem Fits.left {h sz v : ℕ} {k : Bytes} {l r : Node Bytes Bytes}
    (hf : Fits (.branch h sz v k l r)) : Fits l :=
  fun p hp => hf p (List.mem_append_left _ hp)

theorem Fits.right {h sz v : ℕ} {k : Bytes} {l r : Node Bytes Bytes}
    (hf : Fits (.branch h sz v k l r)) : Fits r :=
  fun p hp => hf p (List.mem_append_right _ hp)

/-- The index of the root of a subtree begun after `B` branches and `L` leaves. -/
def rootAt (B L : ℕ) (p : StoredNode) : PersistedNode :=
  if count p = 1 then ⟨true, L⟩ else ⟨false, B + count p - 2⟩

/-! ### Index arithmetic -/

theorem getStartLeaf_eq {B L sz : ℕ} (hBL : B ≤ L) (h2 : 2 ≤ sz) (hL : L + sz < 2 ^ 32) :
    getStartLeaf (B + sz - 2) sz (L - B) = L := by
  simp only [getStartLeaf, u32]; omega

theorem getEndLeaf_eq {B L sz : ℕ} (hBL : B ≤ L) (h2 : 2 ≤ sz) (hL : L + sz < 2 ^ 32) :
    getEndLeaf (B + sz - 2) (L - B) = L + sz - 1 := by
  simp only [getEndLeaf, u32]; omega

theorem getLeftBranch_eq {B L c : ℕ} (hBL : B ≤ L) (hc : 2 ≤ c) (hL : L + c < 2 ^ 32) :
    getLeftBranch (L + c) (L - B) = B + c - 2 := by
  simp only [getLeftBranch, u32]; omega

theorem rightBranch_eq {B L c d : ℕ} (hBL : B ≤ L) (hc : 1 ≤ c) (hd : 2 ≤ d)
    (hL : L + (c + d) < 2 ^ 32) :
    u32 (((B + (c + d) - 2 : ℕ) : ℤ) - 1) = B + (c - 1) + d - 2 := by
  simp only [u32]; omega

section

variable {sha256 : Bytes → Bytes} {n : ℕ}

theorem count_stored (sha256 : Bytes → Bytes) {t : Node Bytes Bytes} (h : t.Balanced) :
    count (t.stored sha256) = t.size := by
  induction t with
  | leaf => rfl
  | branch ht sz v k l r ihl ihr =>
    obtain ⟨-, hs, -, -, hl, hr⟩ := h
    rw [Node.stored, count, ihl hl, ihr hr, Node.size_branch, hs]

/-- An AVL tree doubles its size every two levels. -/
theorem two_pow_height_le_size {t : Node Bytes Bytes} (h : t.Balanced) :
    2 ^ ((t.height + 1) / 2) ≤ t.size := by
  induction t with
  | leaf v k x => simp [Node.size]
  | branch ht sz v k l r ihl ihr =>
    obtain ⟨hh, hs, h1, h2, hl, hr⟩ := h
    have step : ∀ m, ht ≤ m + 2 → 2 ^ ((ht + 1) / 2) ≤ 2 * 2 ^ ((m + 1) / 2) := by
      intro m hm
      rw [← Nat.pow_succ']
      exact Nat.pow_le_pow_right (by omega) (by omega)
    have hl' := step l.height (by omega)
    have hr' := step r.height (by omega)
    have := ihl hl
    have := ihr hr
    simp only [Node.height_branch, Node.size_branch]
    omega

theorem height_lt_of_size_lt {t : Node Bytes Bytes} (h : t.Balanced) (hs : t.size < 2 ^ 32) :
    t.height < 64 := by
  have hpow := (two_pow_height_le_size h).trans_lt hs
  have := (Nat.pow_lt_pow_iff_right (by omega : 1 < 2)).mp hpow
  omega

theorem hashNode_length (hsha : ∀ b, (sha256 b).length = sizeHash) (t : Node Bytes Bytes) :
    (t.hashNode sha256).length = sizeHash := by
  cases t <;> exact hsha _

/-- A well-formed tree of versions up to `n`, small enough for the fields of the records, whose
files begin after `B` branches, `L` leaves and `off` bytes. -/
structure Written (sha256 : Bytes → Bytes) (s : Snapshot) (n B L off : ℕ) (t : Node Bytes Bytes) : Prop where
  inv : t.Inv n
  version_lt : n < 2 ^ 64
  fits : Fits t
  length_hash : ∀ b, (sha256 b).length = sizeHash
  kvs_lt : s.kvs.length < 2 ^ 63
  branches_le : B ≤ L
  leaves_lt : L + t.size < 2 ^ 32
  preTrees_lt : L - B + t.height < 2 ^ 8
  placed : Placed s B L off (t.stored sha256)

namespace Written

variable {B L off h sz v : ℕ} {k x : Bytes} {t l r : Node Bytes Bytes}

theorem size_pos (w : Written sha256 s n B L off t) : 0 < t.size := by
  rw [← count_stored sha256 w.inv.balanced]
  exact count_pos _

theorem left (w : Written sha256 s n B L off (.branch h sz v k l r)) : Written sha256 s n B L off l := by
  obtain ⟨inv, hn, fits, hsha, hs, hBL, hL, hpre, placed⟩ := w
  obtain ⟨hh, hsz, -⟩ := inv.balanced
  simp only [Node.size_branch, Node.height_branch] at hL hpre
  exact ⟨inv.left, hn, fits.left, hsha, hs, hBL, by omega, by omega, placed.left⟩

/-- The left sibling is one more pending tree. -/
theorem right (w : Written sha256 s n B L off (.branch h sz v k l r)) :
    Written sha256 s n (B + (l.size - 1)) (L + l.size) (off + (kvsOf (l.stored sha256)).length) r := by
  have hpos := w.left.size_pos
  obtain ⟨inv, hn, fits, hsha, hs, hBL, hL, hpre, placed⟩ := w
  obtain ⟨hh, hsz, -⟩ := inv.balanced
  have hright := placed.right
  rw [count_stored sha256 inv.left.balanced] at hright
  simp only [Node.size_branch, Node.height_branch] at hL hpre
  exact ⟨inv.right, hn, fits.right, hsha, hs, by omega, by omega, by omega, hright⟩

theorem two_le_size (w : Written sha256 s n B L off (.branch h sz v k l r)) : 2 ≤ sz := by
  have hl := w.left.size_pos
  have hr := w.right.size_pos
  rw [w.inv.balanced.2.1]
  omega

theorem rootAt_eq (w : Written sha256 s n B L off t) :
    rootAt B L (t.stored sha256) = if t.size = 1 then ⟨true, L⟩ else ⟨false, B + t.size - 2⟩ := by
  rw [rootAt, count_stored sha256 w.inv.balanced]

/-- The record of a branch, with its fields. -/
theorem node (w : Written sha256 s n B L off (.branch h sz v k l r)) :
    ∃ d : NodeLayout, s.node (B + sz - 2) = some d ∧ d.height = h ∧ d.preTrees = L - B ∧ d.version = v ∧
      d.size = sz ∧ d.keyLeaf = L + l.size ∧ d.hash = Node.hashNode sha256 (.branch h sz v k l r) := by
  have hsz := w.inv.balanced.2.1
  have hL := w.leaves_lt
  have hpre := w.preTrees_lt
  have hrec := w.placed.node
  rw [count_stored sha256 w.inv.left.balanced, count_stored sha256 w.inv.right.balanced,
    Nat.add_assoc, ← hsz] at hrec
  simp only [Node.size_branch, Node.height_branch] at hL hpre
  exact ⟨_, hrec, nodeLayout_fields (by omega) (by omega) (w.inv.version_le.trans_lt w.version_lt)
    (by omega) (by omega) (hashNode_length w.length_hash _)⟩

theorem leafKeyValue (w : Written sha256 s n B L off (.leaf v k x)) :
    s.leafKey L = some k ∧ s.leafKeyValue L = some (k, x) := by
  have hlen := w.fits (k, x) (by simp [Node.toList])
  exact w.placed.leafKeyValue w.kvs_lt (w.inv.version_le.trans_lt w.version_lt) hlen.1 hlen.2
    (hashNode_length w.length_hash _)

/-- The first leaf of a subtree holds its smallest key. -/
theorem leafKey_minKey (w : Written sha256 s n B L off t) : s.leafKey L = some t.minKey := by
  induction t with
  | leaf v k x => exact w.leafKeyValue.1
  | branch h sz v k l r ihl _ => exact ihl w.left

/-! ### Reading a subtree -/

theorem shows_leaf (w : Written sha256 s n B L off (.leaf v k x)) :
    Shows sha256 s ⟨true, L⟩ (.leaf v k x) := by
  have hlen := w.fits (k, x) (by simp [Node.toList])
  have hoff := w.placed.kvs.le
  have hs := w.kvs_lt
  obtain ⟨hkey, hval⟩ := w.leafKeyValue
  obtain ⟨fv, -, -, fh⟩ := leafLayout_fields (v := v) (o := off) (w.inv.version_le.trans_lt w.version_lt)
    hlen.1 (by omega) (hashNode_length w.length_hash (.leaf v k x))
  refine ⟨rfl, rfl, rfl, ?_, ?_, ?_, ?_⟩
  · simpa [PersistedNode.version, w.placed.leaf, Node.version] using fv
  · simpa [PersistedNode.key, Node.key] using hkey
  · simp [PersistedNode.value, hval]
  · simpa [PersistedNode.hash, w.placed.leaf] using fh

theorem left_rootAt (w : Written sha256 s n B L off (.branch h sz v k l r)) :
    PersistedNode.left s ⟨false, B + sz - 2⟩ = some (rootAt B L (l.stored sha256)) := by
  obtain ⟨d, hd, -, fp, -, fs, fk, -⟩ := w.node
  have hL := w.left.leaves_lt
  have hpos := w.left.size_pos
  have hu : u32 ((L : ℤ) + 1) = L + 1 := by simp only [u32]; omega
  simp only [PersistedNode.left, hd, Option.bind_eq_bind, Option.bind_some, fs, fp, fk,
    getStartLeaf_eq w.branches_le w.two_le_size w.leaves_lt, Bool.false_eq_true, if_false,
    w.left.rootAt_eq]
  by_cases h1 : l.size = 1
  · rw [if_pos (by rw [hu, h1]), if_pos h1]
  · rw [if_neg (by rw [hu]; omega), if_neg h1, getLeftBranch_eq w.branches_le (by omega) hL]

theorem right_rootAt (w : Written sha256 s n B L off (.branch h sz v k l r)) :
    PersistedNode.right s ⟨false, B + sz - 2⟩ =
      some (rootAt (B + (l.size - 1)) (L + l.size) (r.stored sha256)) := by
  obtain ⟨d, hd, -, fp, -, -, fk, -⟩ := w.node
  have hL := w.leaves_lt
  have hsz := w.inv.balanced.2.1
  have hl := w.left.size_pos
  have hr := w.right.size_pos
  simp only [PersistedNode.right, hd, Option.bind_eq_bind, Option.bind_some, fp, fk,
    getEndLeaf_eq w.branches_le w.two_le_size w.leaves_lt, Bool.false_eq_true, if_false,
    w.right.rootAt_eq]
  simp only [Node.size_branch] at hL
  by_cases h1 : r.size = 1
  · rw [if_pos (by omega), if_pos h1]
  · rw [if_neg (by omega), if_neg h1, hsz, rightBranch_eq w.branches_le hl (by omega) (by omega)]

/-- From the index of its root a subtree is read back whole. -/
theorem shows (w : Written sha256 s n B L off t) : Shows sha256 s (rootAt B L (t.stored sha256)) t := by
  induction t generalizing B L off with
  | leaf v k x => exact w.shows_leaf
  | branch h sz v k l r ihl ihr =>
    obtain ⟨d, hd, fh, fp, fv, fs, fk, fhash⟩ := w.node
    have hkey := w.right.leafKey_minKey
    rw [w.rootAt_eq, Node.size_branch, if_neg (by have := w.two_le_size; omega)]
    refine ⟨by simp, ⟨?_, ?_, ?_, ?_, rfl, ?_⟩, ⟨_, w.left_rootAt, ihl w.left⟩,
      ⟨_, w.right_rootAt, ihr w.right⟩⟩
    · simp [PersistedNode.height, hd, fh]
    · simp [PersistedNode.size, hd, fs]
    · simp [PersistedNode.version, hd, fv]
    · rw [Node.key, w.inv.ordered.2.1]
      simp [PersistedNode.key, hd, fk, hkey]
    · simp [PersistedNode.hash, hd, fhash]

/-! ### Lookup -/

/-- The leaves of a subtree are numbered from `L` on. -/
theorem leafKeyValue_toList (w : Written sha256 s n B L off t) {i : ℕ} (hlt : i < t.toList.length) :
    s.leafKey (L + i) = t.toList[i]?.map Prod.fst ∧ s.leafKeyValue (L + i) = t.toList[i]? := by
  induction t generalizing B L off i with
  | leaf v k x =>
    obtain rfl : i = 0 := by simpa [Node.toList] using hlt
    exact w.leafKeyValue
  | branch h sz v k l r ihl ihr =>
    have hsize := w.left.inv.balanced.size_eq
    simp only [Node.toList, List.length_append] at hlt ⊢
    rcases lt_or_ge i l.toList.length with h | h
    · rw [List.getElem?_append_left h]
      exact ihl w.left h
    · have hat := ihr w.right (i := i - l.toList.length) (by omega)
      rw [hsize, Nat.add_assoc, Nat.add_sub_cancel' h] at hat
      rwa [List.getElem?_append_right h]

theorem leafRange (w : Written sha256 s n B L off t) :
    (rootAt B L (t.stored sha256)).leafRange s = some (L, t.size) := by
  cases t with
  | leaf v k x => rfl
  | branch h sz v k l r =>
    obtain ⟨d, hd, -, fp, -, fs, -, -⟩ := w.node
    rw [w.rootAt_eq, Node.size_branch, if_neg (by have := w.two_le_size; omega)]
    simp [PersistedNode.leafRange, hd, fp, fs,
      getStartLeaf_eq w.branches_le w.two_le_size w.leaves_lt]

/-- A lookup searches the pairs of the subtree. -/
theorem get_eq (w : Written sha256 s n B L off t) (key : Bytes) :
    (rootAt B L (t.stored sha256)).get s key = some (searchPair key t.toList) := by
  have hL := w.leaves_lt
  have hsize := w.inv.balanced.size_eq
  have hu : ∀ i, i ≤ t.size → u32 ((L : ℤ) + i) = L + i := by
    intro i hi
    simp only [u32]
    omega
  have hsearch : search t.size (fun i => ((s.leafKey (u32 (L + i))).map fun k => decide (key ≤ k)).getD true) =
      searchIndex key t.toList := by
    rw [searchIndex, ← hsize]
    refine search_congr fun i hi => ?_
    rw [hu i hi.le, (w.leafKeyValue_toList (hsize ▸ hi)).1]
    simp [Function.comp_def]
  have hle : searchIndex key t.toList ≤ t.size := by
    rw [hsize]
    exact (searchIndex_least key w.inv.ordered.sorted).le
  simp only [PersistedNode.get, w.leafRange, Option.bind_eq_bind, Option.bind_some, hsearch, searchPair]
  rw [add_comm ((searchIndex key t.toList : ℕ) : ℤ), hu _ hle, hu _ le_rfl]
  rcases hle.eq_or_lt with he | hlt
  · rw [if_pos (by omega), List.getElem?_eq_none (by omega)]
  · have hval := (w.leafKeyValue_toList (hsize ▸ hlt)).2
    rw [List.getElem?_eq_getElem (hsize ▸ hlt)] at hval ⊢
    rw [if_neg (by omega), hval]
    simp only [Option.bind_some]
    split_ifs <;> rfl

end Written

end

end IavlStore.Persist
